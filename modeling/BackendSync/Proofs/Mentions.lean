import BackendSync.Path.Basic

/-!
# Mentions of paths

A history is a list of paths, each of them mentioned when something was done about it. One
path is `Later` than another if it was mentioned after the last time that other one was.
Mentions go by the path and not by its spelling.
-/

namespace BackendSync

/-- After the last mention of `q` there is a mention of `p`. -/
def Later (history : List Path) (p q : Path) : Prop :=
  ∃ older u newer, history = older ++ u :: newer ∧ u ≈ q ∧ (∀ x ∈ newer, ¬x ≈ q) ∧
    ∃ x ∈ newer, x ≈ p

theorem exists_last_mention {history : List Path} {q : Path} (h : ∃ x ∈ history, x ≈ q) :
    ∃ older u newer, history = older ++ u :: newer ∧ u ≈ q ∧ ∀ x ∈ newer, ¬x ≈ q := by
  induction history with
  | nil =>
    obtain ⟨x, hx, _⟩ := h
    exact absurd hx List.not_mem_nil
  | cons y rest ih =>
    by_cases hrest : ∃ x ∈ rest, x ≈ q
    · obtain ⟨older, u, newer, heq, huq, hnewer⟩ := ih hrest
      exact ⟨y :: older, u, newer, by rw [heq]; rfl, huq, hnewer⟩
    · obtain ⟨x, hx, hxq⟩ := h
      rcases List.mem_cons.mp hx with hxy | hx
      · rw [hxy] at hxq
        exact ⟨[], y, rest, rfl, hxq, fun z hz hzq => hrest ⟨z, hz, hzq⟩⟩
      · exact absurd ⟨x, hx, hxq⟩ hrest

/-- A mention of a third path changes nothing between two others. -/
theorem Later.append {history : List Path} {p q t : Path} (h : Later history p q) (ht : ¬t ≈ q) :
    Later (history ++ [t]) p q := by
  obtain ⟨older, u, newer, heq, huq, hnewer, x, hx, hxp⟩ := h
  refine ⟨older, u, newer ++ [t], by rw [heq]; simp, huq, ?_, x, List.mem_append_left _ hx, hxp⟩
  intro y hy
  rcases List.mem_append.mp hy with hy | hy
  · exact hnewer y hy
  · rw [List.mem_singleton.mp hy]
    exact ht

/-- What is mentioned now is later than everything that was mentioned before. -/
theorem later_of_mentioned {history : List Path} {p q t : Path} (h : ∃ x ∈ history, x ≈ q)
    (ht : ¬t ≈ q) (htp : t ≈ p) : Later (history ++ [t]) p q := by
  obtain ⟨older, u, newer, heq, huq, hnewer⟩ := exists_last_mention h
  refine ⟨older, u, newer ++ [t], by rw [heq]; simp, huq, ?_, t, by simp, htp⟩
  intro y hy
  rcases List.mem_append.mp hy with hy | hy
  · exact hnewer y hy
  · rw [List.mem_singleton.mp hy]
    exact ht

/-- What is mentioned goes in front of the paths that were mentioned before, in their order. -/
theorem pairwise_later_cons {history paths rest : List Path} {front path : Path}
    (h : paths.Pairwise (Later history)) (hmentioned : ∀ q ∈ paths, ∃ x ∈ history, x ≈ q)
    (hrest : rest.Sublist paths) (hne : ∀ q ∈ rest, ¬path ≈ q) (hfront : path ≈ front) :
    (front :: rest).Pairwise (Later (history ++ [path])) := by
  refine List.pairwise_cons.mpr ⟨?_, ?_⟩
  · intro q hq
    exact later_of_mentioned (hmentioned q (hrest.subset hq)) (hne q hq) hfront
  · refine (h.sublist hrest).imp_of_mem fun _ hq hlater => ?_
    exact hlater.append (hne _ hq)

theorem mentioned_cons {history paths rest : List Path} {front path : Path}
    (hmentioned : ∀ q ∈ paths, ∃ x ∈ history, x ≈ q) (hrest : rest.Sublist paths)
    (hfront : path ≈ front) : ∀ q ∈ front :: rest, ∃ x ∈ history ++ [path], x ≈ q := by
  intro q hq
  rcases List.mem_cons.mp hq with heq | hq
  · exact ⟨path, by simp, by rw [heq]; exact hfront⟩
  · obtain ⟨x, hx, hxq⟩ := hmentioned q (hrest.subset hq)
    exact ⟨x, List.mem_append_left _ hx, hxq⟩

end BackendSync
