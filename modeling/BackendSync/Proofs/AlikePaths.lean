import Mathlib.Data.List.Forall2
import BackendSync.Proofs.CacheEntries
import BackendSync.Proofs.LiveTexts
import BackendSync.Proofs.MatchSets
import BackendSync.Proofs.NearestWatch

/-!
# Paths up to spelling, wherever they are kept

Two sets of paths are alike if they list the same paths in the same order, however spelled.
Two maps are, and two caches, if they hold the same values at paths that are alike in this
sense. Everything that is done with such containers compares paths up to spelling, so if it
is done to both at two spellings of one path, they stay alike, and what is found in them is
the same. The registry of watches keeps no spelling of its callers at all: there the two are
not alike but equal, and only what is refused or reported shows the spelling.
-/

namespace BackendSync

/-! ## Lists whose elements correspond -/

section Lists

variable {α : Type u} {β : Type v} {R : α → β → Prop} {xs : List α} {ys : List β}

theorem find?_rel {f : α → Bool} {g : β → Bool} (hfg : ∀ x y, R x y → f x = g y)
    (h : List.Forall₂ R xs ys) : Option.Rel R (xs.find? f) (ys.find? g) := by
  induction h with
  | nil => exact .none
  | @cons x y xs ys hxy _ ih =>
    rw [List.find?_cons, List.find?_cons, hfg x y hxy]
    cases g y with
    | true => exact .some hxy
    | false => exact ih

theorem exists_mem_rel {P : α → Prop} {Q : β → Prop} (hPQ : ∀ x y, R x y → (P x ↔ Q y))
    (h : List.Forall₂ R xs ys) : (∃ x ∈ xs, P x) ↔ ∃ y ∈ ys, Q y := by
  induction h with
  | nil => exact iff_of_false (by simp) (by simp)
  | @cons x y xs ys hxy _ ih => simp only [List.mem_cons, exists_eq_or_imp, hPQ x y hxy, ih]

theorem concat_rel_iff {x : α} {y : β} :
    List.Forall₂ R (xs ++ [x]) (ys ++ [y]) ↔ List.Forall₂ R xs ys ∧ R x y := by
  rw [← List.forall₂_reverse_iff, List.reverse_append, List.reverse_append,
    List.reverse_singleton, List.reverse_singleton, List.singleton_append, List.singleton_append,
    List.forall₂_cons, List.forall₂_reverse_iff, and_comm]

theorem modify_rel {f : α → α} {g : β → β} (hfg : ∀ x y, R x y → R (f x) (g y))
    (h : List.Forall₂ R xs ys) (i : Nat) : List.Forall₂ R (xs.modify i f) (ys.modify i g) := by
  induction h generalizing i with
  | nil => cases i <;> exact .nil
  | @cons x y xs ys hxy hrest ih =>
    cases i with
    | zero => exact .cons (hfg x y hxy) hrest
    | succ i => exact .cons hxy (ih i)

theorem eraseIdx_rel (h : List.Forall₂ R xs ys) (i : Nat) :
    List.Forall₂ R (xs.eraseIdx i) (ys.eraseIdx i) := by
  induction h generalizing i with
  | nil => exact .nil
  | cons hxy hrest ih =>
    cases i with
    | zero => exact hrest
    | succ i => exact .cons hxy (ih i)

theorem getElem?_rel (h : List.Forall₂ R xs ys) (i : Nat) : Option.Rel R xs[i]? ys[i]? := by
  induction h generalizing i with
  | nil => exact .none
  | cons hxy _ ih =>
    cases i with
    | zero => exact .some hxy
    | succ i => exact ih i

theorem map_eq_of_rel {γ : Type w} {f : α → γ} {g : β → γ} (hfg : ∀ x y, R x y → f x = g y)
    {x : Option α} {y : Option β} (h : Option.Rel R x y) : x.map f = y.map g := by
  cases h with
  | some hxy => exact congrArg some (hfg _ _ hxy)
  | none => rfl

theorem isSome_eq_of_rel {x : Option α} {y : Option β} (h : Option.Rel R x y) :
    x.isSome = y.isSome := by
  cases h with
  | some _ => rfl
  | none => rfl

theorem eq_none_iff_of_rel {x : Option α} {y : Option β} (h : Option.Rel R x y) :
    x = none ↔ y = none := by
  cases h with
  | some _ => exact iff_of_false (Option.some_ne_none _) (Option.some_ne_none _)
  | none => exact iff_of_true rfl rfl

theorem exists_of_rel {x : α} {y : Option β} (h : Option.Rel R (some x) y) :
    ∃ y', y = some y' ∧ R x y' := by
  cases h with
  | some h => exact ⟨_, rfl, h⟩

theorem toList_rel {x : Option α} {y : Option β} (h : Option.Rel R x y) :
    List.Forall₂ R x.toList y.toList := by
  cases h with
  | some h => exact .cons h .nil
  | none => exact .nil

end Lists

/-- Two spellings of a path are compared with a third path alike. -/
theorem decide_equiv_congr {p q r s : Path} (hpq : p ≈ q) (hrs : r ≈ s) :
    decide (p ≈ r) = decide (q ≈ s) := by
  refine decide_eq_decide.mpr ⟨fun h => ?_, fun h => ?_⟩
  · exact Setoid.trans (Setoid.symm hpq) (Setoid.trans h hrs)
  · exact Setoid.trans hpq (Setoid.trans h (Setoid.symm hrs))

theorem equiv_congr {p q r s : Path} (hpq : p ≈ q) (hrs : r ≈ s) : p ≈ r ↔ q ≈ s :=
  decide_eq_decide.mp (decide_equiv_congr hpq hrs)

/-- Paths of two lists are alike, one by one. -/
def SamePaths (ps qs : List Path) : Prop := List.Forall₂ (· ≈ ·) ps qs

theorem SamePaths.refl (ps : List Path) : SamePaths ps ps :=
  List.forall₂_same.mpr fun p _ => Setoid.refl p

/-! ## Sets -/

namespace PathSet

/-- Two sets that list the same paths in the same order. -/
def Alike (s t : PathSet) : Prop := SamePaths s.toList t.toList

variable {s t : PathSet} {p q : Path}

theorem Alike.refl (s : PathSet) : s.Alike s := SamePaths.refl s.toList

theorem Alike.mem_iff (h : s.Alike t) (hpq : p ≈ q) : p ∈ s ↔ q ∈ t :=
  exists_mem_rel (fun _ _ hxy => equiv_congr hxy hpq) h

theorem Alike.insert (h : s.Alike t) (hpq : p ≈ q) : (s.insert p).Alike (t.insert q) := by
  rw [Alike, toList_insert, toList_insert]
  by_cases hmem : p ∈ s
  · rw [if_pos hmem, if_pos ((h.mem_iff hpq).mp hmem)]
    exact h
  · rw [if_neg hmem, if_neg (mt (h.mem_iff hpq).mpr hmem)]
    exact concat_rel_iff.mpr ⟨h, hpq⟩

theorem Alike.erase (h : s.Alike t) (hpq : p ≈ q) : (s.erase p).Alike (t.erase q) :=
  List.rel_filter (fun _ _ hxy => Bool.eq_iff_iff.mp
    (congrArg (!·) (decide_equiv_congr hxy hpq))) h

theorem Alike.size_eq (h : s.Alike t) : s.size = t.size := List.Forall₂.length_eq h

end PathSet

namespace MatchSet

/-- Two match sets of the same files in the same order. -/
def Alike (m n : MatchSet) : Prop := m.files.Alike n.files

variable {m n : MatchSet} {p q : Path}

theorem Alike.refl (m : MatchSet) : m.Alike m := PathSet.Alike.refl m.files

theorem Alike.insert (h : m.Alike n) (hpq : p ≈ q) :
    (m.insert p).1 = (n.insert q).1 ∧ (m.insert p).2.Alike (n.insert q).2 := by
  have hnew : m.contains p = n.contains q :=
    decide_eq_decide.mpr (PathSet.Alike.mem_iff h hpq)
  exact ⟨congrArg (!·) hnew, PathSet.Alike.insert h hpq⟩

end MatchSet

/-! ## Maps -/

section Entries

variable {α : Type u}

/-- The same value at two spellings of a path. -/
def SameEntry (x y : Path × α) : Prop := x.1 ≈ y.1 ∧ x.2 = y.2

theorem SameEntry.refl (x : Path × α) : SameEntry x x := ⟨Setoid.refl x.1, rfl⟩

variable {xs ys : List (Path × α)} {p q : Path}

/-- The entry that is found at a path. -/
theorem find?_entry_rel (h : List.Forall₂ SameEntry xs ys) (hpq : p ≈ q) :
    Option.Rel SameEntry (xs.find? fun e => decide (e.1 ≈ p))
      (ys.find? fun e => decide (e.1 ≈ q)) :=
  find?_rel (fun _ _ hxy => decide_equiv_congr hxy.1 hpq) h

/-- The entries at other paths. -/
theorem filter_entry_rel (h : List.Forall₂ SameEntry xs ys) (hpq : p ≈ q) :
    List.Forall₂ SameEntry (xs.filter fun e => !decide (e.1 ≈ p))
      (ys.filter fun e => !decide (e.1 ≈ q)) :=
  List.rel_filter (fun _ _ hxy => Bool.eq_iff_iff.mp
    (congrArg (!·) (decide_equiv_congr hxy.1 hpq))) h

end Entries

namespace PathMap

variable {α : Type u} {m n : PathMap α} {p q : Path}

/-- Two maps of the same values at the same paths in the same order. -/
def Alike (m n : PathMap α) : Prop := List.Forall₂ SameEntry m.entries n.entries

theorem Alike.refl (m : PathMap α) : m.Alike m :=
  List.forall₂_same.mpr fun x _ => SameEntry.refl x

theorem Alike.get?_eq (h : m.Alike n) (hpq : p ≈ q) : m.get? p = n.get? q :=
  map_eq_of_rel (fun _ _ hxy => hxy.2) (find?_entry_rel h hpq)

theorem Alike.insert (h : m.Alike n) (hpq : p ≈ q) (value : α) :
    (m.insert p value).Alike (n.insert q value) := by
  have hpresent : (∃ e ∈ m.entries, e.1 ≈ p) ↔ ∃ e ∈ n.entries, e.1 ≈ q :=
    exists_mem_rel (fun _ _ hxy => equiv_congr hxy.1 hpq) h
  by_cases hp : ∃ e ∈ m.entries, e.1 ≈ p
  · rw [Alike, insert_of_present hp, insert_of_present (hpresent.mp hp), entries_overwrite,
      entries_overwrite, List.forall₂_map_left_iff, List.forall₂_map_right_iff]
    -- a key that is there keeps its spelling, so only the value changes
    refine List.Forall₂.imp (fun x y hxy => ?_) h
    by_cases hxp : x.1 ≈ p
    · rw [if_pos hxp, if_pos ((equiv_congr hxy.1 hpq).mp hxp)]
      exact ⟨hxy.1, rfl⟩
    · rw [if_neg hxp, if_neg (mt (equiv_congr hxy.1 hpq).mpr hxp)]
      exact hxy
  · rw [Alike, entries_insert_of_absent hp, entries_insert_of_absent (mt hpresent.mpr hp)]
    exact concat_rel_iff.mpr ⟨h, hpq, rfl⟩

theorem Alike.erase (h : m.Alike n) (hpq : p ≈ q) : (m.erase p).Alike (n.erase q) :=
  filter_entry_rel h hpq

end PathMap

/-! ## Caches -/

namespace Cache

variable {α : Type u} {c d : Cache α} {p q : Path}

/-- Two caches of the same values at the same paths, in the same order of recency. -/
structure Alike (c d : Cache α) : Prop where
  capacity : c.capacity = d.capacity
  entries : List.Forall₂ SameEntry c.entries d.entries

theorem Alike.refl (c : Cache α) : c.Alike c :=
  ⟨rfl, List.forall₂_same.mpr fun x _ => SameEntry.refl x⟩

theorem Alike.size_eq (h : c.Alike d) : c.size = d.size := h.entries.length_eq

theorem Alike.entry? (h : c.Alike d) (hpq : p ≈ q) :
    Option.Rel SameEntry (c.entry? p) (d.entry? q) := find?_entry_rel h.entries hpq

theorem Alike.entry?_some (h : c.Alike d) (hpq : p ≈ q) {e : Path × α} (hp : c.entry? p = some e) :
    ∃ e', d.entry? q = some e' ∧ SameEntry e e' := exists_of_rel (hp ▸ h.entry? hpq)

theorem Alike.entry?_eq_none_iff (h : c.Alike d) (hpq : p ≈ q) :
    c.entry? p = none ↔ d.entry? q = none := eq_none_iff_of_rel (h.entry? hpq)

theorem Alike.contains_eq (h : c.Alike d) (hpq : p ≈ q) : c.contains p = d.contains q :=
  isSome_eq_of_rel (h.entry? hpq)

theorem Alike.refresh (h : c.Alike d) (hpq : p ≈ q) {e e' : Path × α} (hp : c.entry? p = some e)
    (hq : d.entry? q = some e') (hsame : SameEntry e e') (value : α) :
    (⟨c.refresh p e hp value⟩ : Cache α).Alike ⟨d.refresh q e' hq value⟩ :=
  ⟨h.capacity, .cons ⟨hsame.1, rfl⟩ (filter_entry_rel h.entries hpq)⟩

theorem Alike.erase (h : c.Alike d) (hpq : p ≈ q) : (⟨c.erase p⟩ : Cache α).Alike ⟨d.erase q⟩ :=
  ⟨h.capacity, filter_entry_rel h.entries hpq⟩

/-- **What leaves on an insertion leaves both caches, and they stay alike.** -/
theorem Alike.insert (h : c.Alike d) (hpq : p ≈ q) (value : α) :
    Option.Rel SameEntry (c.insert p value).1 (d.insert q value).1 ∧
      (c.insert p value).2.Alike (d.insert q value).2 := by
  have hcapacity : (c.insert p value).2.capacity = (d.insert q value).2.capacity := by
    rw [capacity_insert, capacity_insert, h.capacity]
  cases hp : c.entry? p with
  | some e =>
    obtain ⟨e', hq, hsame⟩ := h.entry?_some hpq hp
    rw [insert_of_present hp, insert_of_present hq]
    exact ⟨.none, h.refresh hpq hp hq hsame value⟩
  | none =>
    have hq := (h.entry?_eq_none_iff hpq).mp hp
    -- they are equally full, so an entry leaves both or neither
    have hsize := h.size_eq
    have hlimit := h.capacity
    rcases insert_of_absent hp value with
      ⟨hroom, hnone, hentries⟩ | ⟨rest, last, hfull, hsplit, hlast, hentries⟩
    · rcases insert_of_absent hq value with
        ⟨_, hnone', hentries'⟩ | ⟨_, _, hfull', _⟩
      · rw [hnone, hnone']
        refine ⟨.none, hcapacity, ?_⟩
        rw [hentries, hentries']
        exact .cons ⟨hpq, rfl⟩ h.entries
      · omega
    · rcases insert_of_absent hq value with
        ⟨hroom', _⟩ | ⟨rest', last', _, hsplit', hlast', hentries'⟩
      · omega
      · have hboth := h.entries
        rw [hsplit, hsplit'] at hboth
        obtain ⟨hrest, hsame⟩ := concat_rel_iff.mp hboth
        rw [hlast, hlast']
        refine ⟨.some hsame, hcapacity, ?_⟩
        rw [hentries, hentries']
        exact .cons ⟨hpq, rfl⟩ hrest

end Cache

/-! ## Watches -/

/-- Two results that are alike: both a value, or both a failure. -/
inductive SameResult {ε : Type u} {ε' : Type v} {α : Type w} {β : Type x} (E : ε → ε' → Prop)
    (R : α → β → Prop) : Except ε α → Except ε' β → Prop
  | ok {a : α} {b : β} (h : R a b) : SameResult E R (.ok a) (.ok b)
  | error {e : ε} {f : ε'} (h : E e f) : SameResult E R (.error e) (.error f)

section Results

variable {ε : Type u} {ε' : Type v} {α : Type w}

theorem SameResult.refl {E : ε → ε → Prop} (hE : ∀ e, E e e) (x : Except ε α) :
    SameResult E (· = ·) x x := by
  cases x with
  | ok a => exact .ok rfl
  | error e => exact .error (hE e)

theorem SameResult.toOption_eq {E : ε → ε' → Prop} {x : Except ε α} {y : Except ε' α}
    (h : SameResult E (· = ·) x y) : x.toOption = y.toOption := by
  cases h with
  | ok heq => exact congrArg some heq
  | error _ => rfl

end Results

namespace Watch

/-- The same reason why a path cannot be watched. -/
inductive Error.Alike : Error → Error → Prop
  | relativePath {p q : Path} (h : p ≈ q) : Alike (.relativePath p) (.relativePath q)
  | notNormalized {p q : Path} (h : p ≈ q) : Alike (.notNormalized p) (.notNormalized q)
  | root : Alike Error.root Error.root

theorem Error.Alike.refl (e : Error) : e.Alike e := by
  cases e with
  | relativePath p => exact .relativePath (Setoid.refl p)
  | notNormalized p => exact .notNormalized (Setoid.refl p)
  | root => exact .root

/-- The same event, under two spellings of the path that it is about. -/
structure Event.Alike (e f : Event) : Prop where
  watched : e.watched = f.watched
  path : e.path ≈ f.path
  kind : e.kind = f.kind

theorem Event.Alike.refl (e : Event) : e.Alike e := ⟨rfl, Setoid.refl e.path, rfl⟩

variable {p q : Path}

theorem segments_alike (h : p ≈ q) : SameResult Error.Alike (· = ·) (segments p) (segments q) := by
  have hclimbs : p.climbs = q.climbs := by
    rw [Path.climbs, h.2, Path.climbs]
  rw [segments, segments, h.1, hclimbs, h.2]
  split
  · exact .error (.relativePath h)
  · split
    · exact .error (.notNormalized h)
    · exact .ok rfl

theorem Trie.insert_alike {α : Type} (t : Trie α) (h : p ≈ q) :
    SameResult Error.Alike (· = ·) (t.insert p).1 (t.insert q).1 ∧
      (t.insert p).2 = (t.insert q).2 := by
  unfold Trie.insert
  generalize hp : segments p = names, hq : segments q = names'
  have hboth := segments_alike h
  rw [hp, hq] at hboth
  cases hboth with
  | ok heq =>
    rw [heq]
    exact ⟨.ok rfl, rfl⟩
  | error he => exact ⟨.error he, rfl⟩

theorem Trie.lookup?_congr {α : Type} (t : Trie α) (h : p ≈ q) : t.lookup? p = t.lookup? q := by
  unfold Trie.lookup?
  generalize hp : segments p = names, hq : segments q = names'
  have hboth := segments_alike h
  rw [hp, hq] at hboth
  cases hboth with
  | ok heq => rw [heq]
  | error _ => rfl

/-- **Registering under two spellings gives one handle and one registry, or one refusal.** -/
theorem Registry.register_alike (r : Registry) (h : p ≈ q) (kind : Kind) :
    SameResult Error.Alike (· = ·) (r.register p kind).1 (r.register q kind).1 ∧
      (r.register p kind).2 = (r.register q kind).2 := by
  unfold Registry.register
  obtain ⟨hnode, htrie⟩ := r.trie.insert_alike h
  generalize r.trie.insert p = inserted, r.trie.insert q = inserted' at *
  obtain ⟨node, trie⟩ := inserted
  obtain ⟨node', trie'⟩ := inserted'
  obtain rfl : trie = trie' := htrie
  cases hnode with
  | ok heq =>
    -- node and trie are the same, and the rest does not look at the path again
    rw [heq]
    exact ⟨.refl Error.Alike.refl _, rfl⟩
  | error he => exact ⟨.error he, rfl⟩

theorem Registry.trigger_alike (r : Registry) (h : p ≈ q) :
    Option.Rel Event.Alike (r.trigger p) (r.trigger q) := by
  have hfind : r.find? p = r.find? q := by
    rw [Registry.find?, r.trie.lookup?_congr h, Registry.find?]
  rw [Registry.trigger, Registry.trigger, hfind]
  cases r.find? q with
  | none => exact .none
  | some found =>
    obtain ⟨watched, kind⟩ := found
    cases kind with
    | file => exact .some (Event.Alike.refl _)
    | directory => exact .some ⟨rfl, h, rfl⟩

end Watch

end BackendSync
