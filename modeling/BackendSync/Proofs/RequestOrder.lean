import Mathlib.Data.List.Perm.Subperm
import BackendSync.Proofs.SettledFiles

/-!
# The order of requests

If there is room for all the files of a list of requests, none of them has to be announced
and the cap is not exceeded, then each request is answered as if it were the only one. That
is `requests_in_any_order`. The induction is on the list, and `After` says of a session what
it has become by a list of requests, in terms of the session they began in.

The openings all ask for the same watches, so it matters how many files were opened so far
and not which. The match set grows with each request that counts, so if it is within the cap
in the end, it was so all the time.
-/

namespace BackendSync

/-! ## Counting paths -/

/-- Different paths that all occur in a list are no more than the different paths of the list. -/
theorem length_le_firstSpellings {paths others : List Path}
    (hdistinct : paths.Pairwise fun p q => ¬p ≈ q)
    (hamong : ∀ p ∈ paths, ∃ q ∈ others, q ≈ p) :
    paths.length ≤ (firstSpellings others).length := by
  -- up to spelling, the one list has no duplicates and is among the other
  have hnodup : (paths.map (Quotient.mk inferInstance)).Nodup :=
    List.pairwise_map.mpr (hdistinct.imp fun hne heq => hne (Quotient.exact heq))
  have hsubset : paths.map (Quotient.mk inferInstance) ⊆
      (firstSpellings others).map (Quotient.mk inferInstance) := by
    intro x hx
    obtain ⟨p, hp, rfl⟩ := List.mem_map.mp hx
    obtain ⟨q, hq, hqp⟩ := exists_mem_firstSpellings_iff.mpr (hamong p hp)
    exact List.mem_map.mpr ⟨q, hq, Quotient.sound hqp⟩
  have hle := (List.Nodup.subperm hnodup hsubset).length_le
  rw [List.length_map, List.length_map] at hle
  exact hle

/-- Lists with the same members have the same ordered set. -/
theorem Text.orderedSet_congr {texts texts' : List String} (h : ∀ x, x ∈ texts ↔ x ∈ texts') :
    orderedSet texts = orderedSet texts' := by
  have hnodup : ∀ ts, (orderedSet ts).Nodup := fun ts =>
    (pairwise_orderedSet ts).imp fun {a b} (hlt : a < b) (heq : a = b) =>
      String.lt_irrefl b (heq ▸ hlt)
  have hperm : (orderedSet texts).Perm (orderedSet texts') := by
    refine (List.perm_ext_iff_of_nodup (hnodup texts) (hnodup texts')).mpr fun x => ?_
    rw [mem_orderedSet, mem_orderedSet]
    exact h x
  refine hperm.eq_of_pairwise (fun a b _ _ hab hba => ?_) (pairwise_orderedSet texts)
    (pairwise_orderedSet texts')
  exact absurd (String.lt_trans hab hba) (String.lt_irrefl a)

namespace Session

variable {s t : Session Scripted} {request : Request}

/-! ## A list of requests -/

/-- The file of a request. -/
def file (s : Session Scripted) (a : Request × Bool) : Path := s.absolute a.1.path

/-- Does the request put its file into the match set, where it is not yet? -/
def adds (s : Session Scripted) (a : Request × Bool) : Bool :=
  counts (s.answer a.1 a.2) && !decide (s.file a ∈ s.used.files)

/-- Requests that do not get in each other's way. -/
structure Independent (s : Session Scripted) (requests : List (Request × Bool)) : Prop where
  /-- No two of them are for one file. -/
  different : requests.Pairwise fun a b => ¬s.file a ≈ s.file b
  /-- All of them ask for the same extensions. -/
  extensions : ∀ a ∈ requests, ∀ b ∈ requests, ∀ x, x ∈ a.1.extensions ↔ x ∈ b.1.extensions
  /-- Each file is open or in a project. -/
  settled : ∀ a ∈ requests, s.Settled (s.file a)
  /-- The open files and the requested ones can all be open at once. -/
  room : (firstSpellings (s.openFiles.paths ++ requests.map s.file)).length ≤
    s.config.maximumOpenFiles

/--
What a session has become by requests for different files. No clause depends on the order of
the requests, but for the extensions, of which the last request decides.
-/
structure After (s : Session Scripted) (done : List (Request × Bool)) (t : Session Scripted) :
    Prop where
  script : s.SameScript t
  untouched : ∀ q, (∀ a ∈ done, ¬s.file a ≈ q) →
    t.openFiles.entry? q = s.openFiles.entry? q ∧
      t.backend.buffers.get? q = s.backend.buffers.get? q
  texts : ∀ a ∈ done, t.backend.buffers.get? (s.file a) = some a.1.code
  entries : t.openFiles.entries.Perm
    ((s.openFiles.entries.filter fun e => decide (∀ a ∈ done, ¬s.file a ≈ e.1)) ++
      done.map fun a => (s.openFiles.spelling (s.file a), s.openAs (s.file a)))
  watches : (t.watches, t.backend.queue) =
    Nat.repeat s.registerOne (done.countP fun a => s.needsOpening (s.file a))
      (s.watches, s.backend.queue)
  used : t.used.files.toList = s.used.files.toList ++ (done.filter s.adds).map s.file
  extensions : t.extensions = (done.getLast?.map fun a =>
    Text.orderedSet (s.config.extraExtensions ++ a.1.extensions)).getD s.extensions

theorem after_nil (s : Session Scripted) : s.After [] s := by
  refine ⟨.refl s, fun q _ => ⟨rfl, rfl⟩, fun a h => absurd h List.not_mem_nil, ?_, rfl, ?_, rfl⟩
  · have hall : (s.openFiles.entries.filter fun e =>
        decide (∀ a ∈ ([] : List (Request × Bool)), ¬s.file a ≈ e.1)) = s.openFiles.entries :=
      List.filter_eq_self.mpr fun e _ => decide_eq_true fun a h => absurd h List.not_mem_nil
    rw [hall, List.map_nil, List.append_nil]
  · rw [List.filter_nil, List.map_nil, List.append_nil]

section Reading

variable {p : Path} {done rest : List (Request × Bool)} {a : Request × Bool}

/-- What the session reads of one file, and how it answers, if the file is as it was. -/
structure ReadsAlike (s t : Session Scripted) (p : Path) : Prop where
  script : s.SameScript t
  entry : t.openFiles.entry? p = s.openFiles.entry? p
  text : t.backend.buffers.get? p = s.backend.buffers.get? p

theorem ReadsAlike.openAs (h : s.ReadsAlike t p) : t.openAs p = s.openAs p := by
  rw [Session.openAs, h.entry, h.text, h.script.report, Session.openAs]

theorem ReadsAlike.needsOpening (h : s.ReadsAlike t p) : t.needsOpening p = s.needsOpening p := by
  rw [Session.needsOpening, h.entry, h.text, Session.needsOpening]

theorem ReadsAlike.spelling (h : s.ReadsAlike t p) :
    t.openFiles.spelling p = s.openFiles.spelling p := by
  rw [Cache.spelling, h.entry, Cache.spelling]

theorem ReadsAlike.settled (h : s.ReadsAlike t p) (hsettled : s.Settled p) : t.Settled p := by
  rw [Settled, LruMap.contains, h.entry, h.script.projectOf?]
  exact hsettled

theorem SameScript.absolute (h : s.SameScript t) : t.absolute = s.absolute :=
  absolute_congr h.directory

theorem ReadsAlike.answer (h : s.ReadsAlike t (s.absolute request.path)) (full : Bool) :
    t.answer request full = s.answer request full := by
  rw [Session.answer, h.script.absolute, h.openAs, h.script.projectOf?,
    allows_congr h.script.directory h.script.allowlist, h.script.withoutProgram, Session.answer]

theorem After.readsAlike (h : s.After done t) (hnew : ∀ b ∈ done, ¬s.file b ≈ p) :
    s.ReadsAlike t p :=
  ⟨h.script, (h.untouched p hnew).1, (h.untouched p hnew).2⟩

/-- The open files are those from before and those that were requested. -/
theorem After.exists_of_mem_paths (h : s.After done t) {q : Path} (hq : q ∈ t.openFiles.paths) :
    ∃ r ∈ s.openFiles.paths ++ done.map s.file, r ≈ q := by
  obtain ⟨e, he, rfl⟩ := List.mem_map.mp hq
  rcases List.mem_append.mp (h.entries.mem_iff.mp he) with hold | hnew
  · have hmem := (List.mem_filter.mp hold).1
    exact ⟨e.1, List.mem_append_left _ (List.mem_map_of_mem hmem), Setoid.refl e.1⟩
  · obtain ⟨b, hb, rfl⟩ := List.mem_map.mp hnew
    refine ⟨s.file b, List.mem_append_right _ (List.mem_map_of_mem hb), ?_⟩
    exact Setoid.symm (Cache.spelling_equiv s.openFiles (s.file b))

/-- While requests are left there is room for the next one. -/
theorem After.hasRoom (h : s.After done t) (hind : s.Independent (done ++ a :: rest))
    (hcapacity : s.openFiles.capacity = s.config.maximumOpenFiles) : t.HasRoom (s.file a) := by
  intro habsent
  have hdistinct : (s.file a :: t.openFiles.paths).Pairwise fun p q => ¬p ≈ q := by
    refine List.pairwise_cons.mpr ⟨fun q hq haq => ?_, t.openFiles.paths_distinct⟩
    obtain ⟨e, he, rfl⟩ := List.mem_map.mp hq
    exact LruMap.absent_iff.mp habsent e he (Setoid.symm haq)
  have hamong : ∀ p ∈ s.file a :: t.openFiles.paths,
      ∃ q ∈ s.openFiles.paths ++ (done ++ a :: rest).map s.file, q ≈ p := by
    intro p hp
    rw [List.map_append, List.map_cons, ← List.append_assoc]
    rcases List.mem_cons.mp hp with rfl | hp
    · exact ⟨_, List.mem_append_right _ List.mem_cons_self, Setoid.refl _⟩
    · obtain ⟨q, hq, hqp⟩ := h.exists_of_mem_paths hp
      exact ⟨q, List.mem_append_left _ hq, hqp⟩
  have hle := Nat.le_trans (length_le_firstSpellings hdistinct hamong) hind.room
  rw [List.length_cons, LruMap.length_paths] at hle
  rw [h.script.capacity, hcapacity]
  exact hle

theorem After.mem_used_iff (h : s.After done t) (hnew : ∀ b ∈ done, ¬s.file b ≈ p) :
    p ∈ t.used.files ↔ p ∈ s.used.files := by
  rw [PathSet.mem_iff, PathSet.mem_iff, h.used]
  constructor
  · rintro ⟨q, hq, hqp⟩
    rcases List.mem_append.mp hq with hold | hadded
    · exact ⟨q, hold, hqp⟩
    · obtain ⟨b, hb, rfl⟩ := List.mem_map.mp hadded
      exact absurd hqp (hnew b (List.mem_filter.mp hb).1)
  · rintro ⟨q, hq, hqp⟩
    exact ⟨q, List.mem_append_left _ hq, hqp⟩

/-- One more file goes to the front of the cache, and the other entries stay. -/
theorem After.entries_brought {t' : Session Scripted} (h : s.After done t)
    (hreads : s.ReadsAlike t (s.file a)) (hnew : ∀ b ∈ done, ¬s.file b ≈ s.file a)
    (hbrought : t.Brought (s.file a) a.1.code t') :
    t'.openFiles.entries.Perm
      ((s.openFiles.entries.filter fun e => decide (∀ b ∈ done ++ [a], ¬s.file b ≈ e.1)) ++
        (done ++ [a]).map fun b => (s.openFiles.spelling (s.file b), s.openAs (s.file b))) := by
  have hold : (s.openFiles.entries.filter fun e => decide (∀ b ∈ done, ¬s.file b ≈ e.1)).filter
        (fun e => !decide (e.1 ≈ s.file a)) =
      s.openFiles.entries.filter fun e => decide (∀ b ∈ done ++ [a], ¬s.file b ≈ e.1) := by
    rw [List.filter_filter]
    refine List.filter_congr fun e _ => ?_
    rw [Bool.eq_iff_iff, Bool.and_eq_true, Bool.not_eq_true', decide_eq_false_iff_not,
      decide_eq_true_iff, decide_eq_true_iff]
    constructor
    · rintro ⟨hea, hall⟩ b hb
      rcases List.mem_append.mp hb with hb | hb
      · exact hall b hb
      · rw [List.mem_singleton.mp hb]
        exact fun hae => hea (Setoid.symm hae)
    · intro hall
      refine ⟨fun hea => ?_, fun b hb => hall b (List.mem_append_left _ hb)⟩
      exact hall a (List.mem_append_right _ (List.mem_singleton_self a)) (Setoid.symm hea)
  have hdone : (done.map fun b => (s.openFiles.spelling (s.file b), s.openAs (s.file b))).filter
        (fun e => !decide (e.1 ≈ s.file a)) =
      done.map fun b => (s.openFiles.spelling (s.file b), s.openAs (s.file b)) := by
    refine List.filter_eq_self.mpr fun e he => ?_
    obtain ⟨b, hb, rfl⟩ := List.mem_map.mp he
    rw [Bool.not_eq_true', decide_eq_false_iff_not]
    exact fun hba => hnew b hb (Setoid.trans (Setoid.symm (Cache.spelling_equiv _ _)) hba)
  have hothers := h.entries.filter fun e => !decide (e.1 ≈ s.file a)
  rw [List.filter_append, hold, hdone] at hothers
  rw [hbrought.entries, hreads.spelling, hreads.openAs, List.map_append, List.map_singleton,
    ← List.append_assoc]
  exact (hothers.cons _).trans (List.perm_append_singleton _ _).symm

theorem After.untouched_brought {t' : Session Scripted} (h : s.After done t)
    (hbrought : t.Brought (s.file a) a.1.code t') (q : Path)
    (hq : ∀ b ∈ done ++ [a], ¬s.file b ≈ q) :
    t'.openFiles.entry? q = s.openFiles.entry? q ∧
      t'.backend.buffers.get? q = s.backend.buffers.get? q := by
  have hqa : ¬s.file a ≈ q := hq a (List.mem_append_right _ (List.mem_singleton_self a))
  obtain ⟨hentry, htext⟩ := h.untouched q fun b hb => hq b (List.mem_append_left _ hb)
  rw [hbrought.texts, PathMap.get?_insert_of_not_equiv _ hqa, ← htext, ← hentry]
  have hspelling : ¬t.openFiles.spelling (s.file a) ≈ q := fun heq =>
    hqa (Setoid.trans (Setoid.symm (Cache.spelling_equiv _ _)) heq)
  refine ⟨?_, rfl⟩
  rw [LruMap.entry?, hbrought.entries, List.find?_cons, decide_eq_false hspelling]
  exact t.openFiles.find?_others hqa

theorem After.texts_brought {t' : Session Scripted} (h : s.After done t)
    (hnew : ∀ b ∈ done, ¬s.file b ≈ s.file a) (hbrought : t.Brought (s.file a) a.1.code t') :
    ∀ b ∈ done ++ [a], t'.backend.buffers.get? (s.file b) = some b.1.code := by
  intro b hb
  rw [hbrought.texts]
  rcases List.mem_append.mp hb with hb | hb
  · have hab : ¬s.file a ≈ s.file b := fun hab => hnew b hb (Setoid.symm hab)
    rw [PathMap.get?_insert_of_not_equiv _ hab]
    exact h.texts b hb
  · rw [List.mem_singleton.mp hb, PathMap.get?_insert_self]

theorem After.watches_brought {t' : Session Scripted} (h : s.After done t)
    (hreads : s.ReadsAlike t (s.file a)) (hbrought : t.Brought (s.file a) a.1.code t') :
    (t'.watches, t'.backend.queue) =
      Nat.repeat s.registerOne ((done ++ [a]).countP fun b => s.needsOpening (s.file b))
        (s.watches, s.backend.queue) := by
  have hregister : t.registerOne = s.registerOne := by
    funext w
    rw [registerOne, h.script.watchesOnOpen, h.script.directory, registerOne]
  rw [hbrought.watches, hreads.needsOpening, h.watches, hregister, List.countP_append,
    List.countP_singleton]
  cases s.needsOpening (s.file a) with
  | true => rfl
  | false => rfl

/-- A request that counts adds its file at the end of the match set, unless it is there. -/
theorem After.used_counted {t' : Session Scripted} (h : s.After done t)
    (hnew : ∀ b ∈ done, ¬s.file b ≈ s.file a)
    (hused : t'.used = countedIn (s.file a) (s.answer a.1 a.2) t.used) :
    t'.used.files.toList =
      s.used.files.toList ++ ((done ++ [a]).filter s.adds).map s.file := by
  rw [hused, List.filter_append, List.map_append, ← List.append_assoc, ← h.used, countedIn]
  cases hcounts : counts (s.answer a.1 a.2) with
  | false =>
    have hadds : s.adds a = false := by
      rw [adds, hcounts]
      rfl
    rw [if_neg Bool.false_ne_true, List.filter_cons_of_neg, List.filter_nil, List.map_nil,
      List.append_nil]
    rw [hadds]
    exact Bool.false_ne_true
  | true =>
    have hadds : s.adds a = !decide (s.file a ∈ s.used.files) := by
      rw [adds, hcounts, Bool.true_and]
    have hinsert : (t.used.insert (s.file a)).2.files = t.used.files.insert (s.file a) := rfl
    rw [if_pos rfl, hinsert, PathSet.toList_insert]
    by_cases hmem : s.file a ∈ s.used.files
    · rw [if_pos ((h.mem_used_iff hnew).mpr hmem), List.filter_cons_of_neg, List.filter_nil,
        List.map_nil, List.append_nil]
      rw [hadds, decide_eq_true hmem]
      exact Bool.false_ne_true
    · rw [if_neg (mt (h.mem_used_iff hnew).mp hmem), List.filter_cons_of_pos, List.filter_nil,
        List.map_singleton]
      rw [hadds, decide_eq_false hmem]
      rfl

/--
**One more request.** It is answered as it would have been in the beginning, unless that
exceeds the cap, and the session is then what the requests so far and this one make of it.
-/
theorem After.resolve (h : s.After done t) (hind : s.Independent (done ++ a :: rest))
    (hcapacity : s.openFiles.capacity = s.config.maximumOpenFiles) :
    s.After (done ++ [a]) (t.resolve a.1 a.2).2 ∧
      ((t.resolve a.1 a.2).2.used.size ≤ s.config.maximumMatches →
        (t.resolve a.1 a.2).1 = s.answer a.1 a.2) := by
  have hnew : ∀ b ∈ done, ¬s.file b ≈ s.file a := fun b hb =>
    (List.pairwise_append.mp hind.different).2.2 b hb a List.mem_cons_self
  have hreads := h.readsAlike hnew
  have hfile : t.absolute a.1.path = s.file a := by
    rw [h.script.absolute, file]
  have hsettled : t.Settled (t.absolute a.1.path) := by
    rw [hfile]
    exact hreads.settled (hind.settled a (List.mem_append_right _ List.mem_cons_self))
  have hroom : t.HasRoom (t.absolute a.1.path) := by
    rw [hfile]
    exact h.hasRoom hind hcapacity
  obtain ⟨hbrought, hextensions, hused, hanswer⟩ := resolve_of_settled hsettled hroom a.2
  rw [hfile] at hbrought hused
  rw [hreads.answer] at hused hanswer
  rw [h.script.config] at hanswer hextensions
  refine ⟨⟨h.script.trans hbrought.script, h.untouched_brought hbrought,
    h.texts_brought hnew hbrought, h.entries_brought hreads hnew hbrought,
    h.watches_brought hreads hbrought, h.used_counted hnew hused, ?_⟩, hanswer⟩
  rw [hextensions, List.getLast?_concat, Option.map_some, Option.getD_some]

theorem After.size_used (h : s.After done t) :
    t.used.size = s.used.size + done.countP s.adds := by
  rw [MatchSet.size, PathSet.size, h.used, List.length_append, List.length_map,
    List.countP_eq_length_filter]
  rfl

end Reading

/-! ## Any order -/

/-- Requests that do not get in each other's way do so in no order and in no part. -/
theorem Independent.of_subperm {requests requests' : List (Request × Bool)}
    (h : s.Independent requests) (hsub : requests'.Subperm requests) : s.Independent requests' := by
  have hmem : ∀ a ∈ requests', a ∈ requests := fun a ha => hsub.subset ha
  refine ⟨?_, fun a ha b hb => h.extensions a (hmem a ha) b (hmem b hb),
    fun a ha => h.settled a (hmem a ha), ?_⟩
  · obtain ⟨kept, hkept, hsublist⟩ := hsub
    refine (List.Perm.pairwise_iff (fun hab hba => hab (Setoid.symm hba)) hkept).mp ?_
    exact h.different.sublist hsublist
  · refine Nat.le_trans (length_le_firstSpellings (distinct_firstSpellings _) fun p hp => ?_) h.room
    obtain ⟨q, hq, hqp⟩ := exists_mem_firstSpellings_iff.mp ⟨p, hp, Setoid.refl p⟩
    refine ⟨q, ?_, hqp⟩
    rcases List.mem_append.mp hq with hold | hnew
    · exact List.mem_append_left _ hold
    · obtain ⟨a, ha, rfl⟩ := List.mem_map.mp hnew
      exact List.mem_append_right _ (List.mem_map_of_mem (hmem a ha))

/-- Two sessions that are alike but for the order in which things came. -/
structure SameUpToOrder (t t' : Session Scripted) : Prop where
  texts : ∀ p, t'.backend.buffers.get? p = t.backend.buffers.get? p
  watches : t'.watches = t.watches
  openFiles : t'.openFiles.entries.Perm t.openFiles.entries
  used : t'.used.files.toList.Perm t.used.files.toList
  extensions : t'.extensions = t.extensions

theorem After.sameUpToOrder {requests requests' : List (Request × Bool)} {t' : Session Scripted}
    (h : s.After requests t) (h' : s.After requests' t') (hind : s.Independent requests)
    (hperm : requests'.Perm requests) : t.SameUpToOrder t' := by
  have hmem : ∀ a, a ∈ requests' ↔ a ∈ requests := fun a => hperm.mem_iff
  refine ⟨fun p => ?_, ?_, ?_, ?_, ?_⟩
  · by_cases hp : ∃ a ∈ requests, s.file a ≈ p
    · obtain ⟨a, ha, hap⟩ := hp
      rw [← PathMap.get?_congr hap, ← PathMap.get?_congr hap, h.texts a ha,
        h'.texts a ((hmem a).mpr ha)]
    · have hnot : ∀ a ∈ requests, ¬s.file a ≈ p := fun a ha hap => hp ⟨a, ha, hap⟩
      have hnot' : ∀ a ∈ requests', ¬s.file a ≈ p := fun a ha => hnot a ((hmem a).mp ha)
      rw [(h.untouched p hnot).2, (h'.untouched p hnot').2]
  · have hboth := h'.watches
    rw [hperm.countP_eq, ← h.watches] at hboth
    exact (Prod.mk.inj hboth).1
  · have hkept : (fun e : Path × OpenedFile => decide (∀ a ∈ requests', ¬s.file a ≈ e.1)) =
        fun e => decide (∀ a ∈ requests, ¬s.file a ≈ e.1) := by
      funext e
      simp only [hmem]
    have hentries := h'.entries
    rw [hkept] at hentries
    exact (hentries.trans ((hperm.map _).append_left _)).trans h.entries.symm
  · rw [h.used, h'.used]
    exact ((hperm.filter _).map _).append_left _
  · rw [h.extensions, h'.extensions]
    cases hlast : requests.getLast? with
    | none =>
      obtain rfl := List.getLast?_eq_none_iff.mp hlast
      rw [hperm.eq_nil]
      rfl
    | some a =>
      cases hlast' : requests'.getLast? with
      | none =>
        obtain rfl := List.getLast?_eq_none_iff.mp hlast'
        rw [hperm.symm.eq_nil] at hlast
        cases hlast
      | some b =>
        have ha := List.mem_of_getLast? hlast
        have hb := (hmem b).mp (List.mem_of_getLast? hlast')
        refine Text.orderedSet_congr fun x => ?_
        rw [List.mem_append, List.mem_append, hind.extensions b hb a ha x]

end Session

namespace World

/-- The answers to steps, one after another. -/
def replies (w : World) : List Step → List Reply
  | [] => []
  | st :: rest => (w.step st).1 :: (w.step st).2.replies rest

/-- Requests as steps that count in the match set of the session. -/
def resolves (requests : List (Request × Bool)) : List Step :=
  requests.map fun a => .resolve a.1 a.2 none

theorem size_used_le_run (w : World) (requests : List (Request × Bool)) :
    w.session.used.size ≤ (w.run (resolves requests)).session.used.size := by
  have hle : (w.counted none).size ≤ ((w.run (resolves requests)).counted none).size := by
    refine size_counted_le_run fun st hst => ?_
    obtain ⟨a, _, rfl⟩ := List.mem_map.mp hst
    rfl
  exact hle

/-- **What a list of requests makes of a session, and how they are answered.** -/
theorem after_run {w v : World} {done requests : List (Request × Bool)}
    (h : w.session.After done v.session) (hind : w.session.Independent (done ++ requests))
    (hcapacity : w.session.openFiles.capacity = w.session.config.maximumOpenFiles) :
    w.session.After (done ++ requests) (v.run (resolves requests)).session ∧
      ((v.run (resolves requests)).session.used.size ≤ w.session.config.maximumMatches →
        v.replies (resolves requests) =
          requests.map fun a => .resolved (w.session.answer a.1 a.2)) := by
  induction requests generalizing v done with
  | nil =>
    rw [List.append_nil]
    exact ⟨h, fun _ => rfl⟩
  | cons a rest ih =>
    obtain ⟨hafter, hanswer⟩ := h.resolve hind hcapacity
    rw [List.append_cons] at hind ⊢
    obtain ⟨hrun, hreplies⟩ := ih (v := (v.step (.resolve a.1 a.2 none)).2) hafter hind
    refine ⟨hrun, fun hcap => ?_⟩
    -- the match set only grows, so no request before the last one exceeds the cap either
    have hsize := size_used_le_run (v.step (.resolve a.1 a.2 none)).2 rest
    have hfirst : (v.step (.resolve a.1 a.2 none)).1 = .resolved (w.session.answer a.1 a.2) :=
      congrArg Reply.resolved (hanswer (Nat.le_trans hsize hcap))
    have hrest := hreplies hcap
    exact List.cons_eq_cons.mpr ⟨hfirst, hrest⟩

theorem capacity_step (w : World) (st : Step) :
    (w.step st).2.session.openFiles.capacity = w.session.openFiles.capacity := by
  rcases w.moves st with ⟨_, _, heq⟩ | ⟨_, _, _, _, _, heq⟩ | ⟨_, _, _, _, _, _, _, _, _, heq⟩ |
    ⟨_, _, _, _, _, hcapacity, _⟩
  · rw [heq]
  · rw [heq]
    rfl
  · rw [heq, Cache.capacity_insert]
  · exact hcapacity

theorem capacity_run (w : World) (steps : List Step) :
    (w.run steps).session.openFiles.capacity = w.session.openFiles.capacity := by
  induction steps generalizing w with
  | nil => rfl
  | cons st rest ih => exact (ih (w.step st).2).trans (w.capacity_step st)

/-- In every state that can be reached the cache is as large as it was configured to be. -/
theorem capacity_of_create {backend : Scripted} {config : Config} {w : World}
    (h : create backend config = .ok w) (steps : List Step) :
    (w.run steps).session.openFiles.capacity = (w.run steps).session.config.maximumOpenFiles := by
  obtain ⟨allowlist, hpos, hsession⟩ := Session.begun_of_create (session_of_create h)
  rw [capacity_run, config_run, (created h).2.1, hsession, Session.openFiles_updateExtensions]
  rfl

/--
**The order of requests makes no difference.** In every state that a session can reach, let
requests be for different files, each of which is open or in a project, and let there be
room for all of them at once and no more files of the default project than allowed. Then in
any order each is answered as if it were the only one, and the texts, the watches, the open
files, the match set and the extensions are the same in the end.
-/
theorem requests_in_any_order {backend : Scripted} {config : Config} {w : World}
    (hcreate : create backend config = .ok w) (steps : List Step)
    {requests : List (Request × Bool)} (hind : (w.run steps).session.Independent requests)
    (hcap : ((w.run steps).run (resolves requests)).session.used.size ≤ config.maximumMatches)
    {requests' : List (Request × Bool)} (hperm : requests'.Perm requests) :
    (w.run steps).replies (resolves requests') =
        requests'.map (fun a => ((w.run steps).step (.resolve a.1 a.2 none)).1) ∧
      ((w.run steps).run (resolves requests)).session.SameUpToOrder
        ((w.run steps).run (resolves requests')).session := by
  have hcapacity := capacity_of_create hcreate steps
  have hconfig : (w.run steps).session.config = config := by
    rw [config_run, (created hcreate).2.1]
  rw [← hconfig] at hcap
  -- part of the requests does not exceed the cap if all of them together do not
  have hrun : ∀ part : List (Request × Bool), part.Subperm requests →
      (w.run steps).session.After part ((w.run steps).run (resolves part)).session ∧
        (w.run steps).replies (resolves part) =
          part.map fun a => .resolved ((w.run steps).session.answer a.1 a.2) := by
    intro part hsub
    obtain ⟨hafter, hreplies⟩ :=
      after_run (Session.after_nil _) (hind.of_subperm hsub) hcapacity
    refine ⟨hafter, hreplies ?_⟩
    have hall := (after_run (Session.after_nil _) hind hcapacity).1
    rw [hall.size_used] at hcap
    rw [hafter.size_used]
    exact Nat.le_trans (Nat.add_le_add_left (hsub.countP_le _) _) hcap
  obtain ⟨hafter, hreplies⟩ := hrun requests' hperm.subperm
  refine ⟨hreplies.trans (List.map_congr_left fun a ha => ?_), ?_⟩
  · have halone := (hrun [a] (List.singleton_subperm_iff.mpr (hperm.mem_iff.mp ha))).2
    exact (List.cons.inj halone).1.symm
  · exact (hrun requests (List.Subperm.refl _)).1.sameUpToOrder hafter hind hperm

/-- A backend that asks for a watch on every opening, with a project of two files. -/
def sharing : Scripted :=
  { Scripted.bare ⟨"/p"⟩ with
    projects := [⟨⟨"/p/c"⟩, .ofList [⟨"/p/a"⟩, ⟨"/p/b"⟩]⟩]
    watchesOnOpen := [⟨⟨"/p"⟩, .directory⟩] }

/-- Two requests, one for a file of the project and one for a file that is open. -/
def sharedRequests : List (Request × Bool) :=
  [(⟨⟨"/p/a"⟩, "x", none, []⟩, true), (⟨⟨"/d"⟩, "z", none, []⟩, false)]

/-- The request that opened it. -/
def earlierRequest : List Step := [.resolve ⟨⟨"/d"⟩, "y", none, []⟩ false none]

/-- The open file is in no project, so it counts. Both are answered alike in both orders. -/
theorem requests_in_any_order_for_two : ∃ w : World,
    create sharing {} = .ok w ∧
    (w.run earlierRequest).session.Independent sharedRequests ∧
    ((w.run earlierRequest).run (resolves sharedRequests)).session.used.size = 1 ∧
    (w.run earlierRequest).replies (resolves sharedRequests.reverse) =
      sharedRequests.reverse.map fun a =>
        ((w.run earlierRequest).step (.resolve a.1 a.2 none)).1 := by
  have hind : ∀ w : World, create sharing {} = .ok w →
      (w.run earlierRequest).session.Independent sharedRequests := by
    intro w hw
    cases hw
    have hnone : ∀ a ∈ sharedRequests, a.1.extensions = [] := by decide
    refine ⟨by decide, fun a ha b hb x => ?_, by decide, by decide⟩
    rw [hnone a ha, hnone b hb]
  have hsame : ∀ w : World, create sharing {} = .ok w → _ → _ := fun w hw hcap =>
    (requests_in_any_order hw earlierRequest (hind w hw) hcap
      (List.reverse_perm sharedRequests)).1
  exact ⟨_, rfl, hind _ rfl, rfl, hsame _ rfl (by decide)⟩

end World

end BackendSync
