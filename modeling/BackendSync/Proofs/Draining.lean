import BackendSync.Proofs.Registering
import BackendSync.Session.Basic

/-!
# Taking requests for watches

The backend asks for many watches at once, and some of the paths may be such that no watch
can be on them. Those are passed over. What a refusal leaves of the registry goes on to the
request after it, and that is all of it.

`Drained` goes through a list of requests one by one. What it comes to is `Drained.registerAll`:
all the same as if only the watchable ones had been asked for, and then each of them is
registered.
-/

namespace BackendSync

/-- The request, with its path seen from a directory. -/
def WatchRequest.seenFrom (request : WatchRequest) (directory : Path) : WatchRequest :=
  { request with path := request.path.absolutize directory }

/-- The requests that can be granted, in their order and with their paths seen from a directory. -/
def grantable (directory : Path) (requests : List WatchRequest) : List WatchRequest :=
  (requests.map (·.seenFrom directory)).filter fun request => Watch.Watchable request.path

namespace Watch

namespace Registry

variable {r r' : Registry} {p directory : Path} {kind : Kind} {handle : Handle}
  {request : WatchRequest} {rest requests : List WatchRequest}

/-- **A path that a watch can be on is registered.** -/
theorem register_of_watchable (h : r.trie.WellFormed) (hp : Watchable p) (kind : Kind) :
    ∃ handle r', r.register p kind = (.ok handle, r') := by
  rcases register_cases h p kind with ⟨hnot, _⟩ | ⟨_, _, _, _, _, hkept⟩ | ⟨_, _, _, _, hnew, _⟩
  · exact absurd hp hnot
  · exact ⟨_, _, hkept⟩
  · exact ⟨_, _, hnew⟩

/-- **Registering keeps the trie in shape, with or without success.** -/
theorem wellFormed_register (h : r.trie.WellFormed) (p : Path) (kind : Kind) :
    (r.register p kind).2.trie.WellFormed := by
  rcases register_cases h p kind with ⟨_, e, hrefused⟩ | ⟨_, node, watch, _, _, hkept⟩ |
    ⟨_, _, node, r', hnew, hregistered⟩
  · rw [hrefused]
    exact h
  · rw [hkept]
    exact h
  · rw [hnew]
    exact hregistered.shape

theorem wellFormed_close (h : r.trie.WellFormed) (handle : Handle) :
    (r.close handle).2.trie.WellFormed := by
  unfold close
  split
  · exact h.setValue handle.node none
  · exact h

/-- Registers what is asked for, one after another, and fails where one of them fails. -/
def registerAll (r : Registry) : List WatchRequest → Except Error Registry
  | [] => .ok r
  | request :: rest =>
    match r.register request.path request.kind with
    | (.ok _, r) => r.registerAll rest
    | (.error e, _) => .error e

theorem registerAll_cons_of_ok (h : r.register request.path request.kind = (.ok handle, r')) :
    r.registerAll (request :: rest) = r'.registerAll rest := by
  rw [registerAll, h]

/-- What becomes of a registry as requests are taken one by one. -/
inductive Drained (directory : Path) : Registry → List WatchRequest → Registry → Prop
  | done (r : Registry) : Drained directory r [] r
  | registered {r r' after : Registry} {request : WatchRequest} {rest : List WatchRequest}
      {handle : Handle}
      (canBe : Watchable (request.seenFrom directory).path)
      (registers : r.register (request.seenFrom directory).path request.kind = (.ok handle, r'))
      (goesOn : Drained directory r' rest after) :
      Drained directory r (request :: rest) after
  /-- The registry is the same for the requests that follow. -/
  | passedOver {r after : Registry} {request : WatchRequest} {rest : List WatchRequest}
      (cannotBe : ¬Watchable (request.seenFrom directory).path)
      (refused : r.Refused (request.seenFrom directory).path request.kind)
      (goesOn : Drained directory r rest after) :
      Drained directory r (request :: rest) after

theorem registerRequest_eq (directory : Path) (r : Registry) (request : WatchRequest) :
    Session.registerRequest directory r request =
      (r.register (request.seenFrom directory).path request.kind).2 := rfl

/-- **Every request is granted or passed over, to the last one.** -/
theorem drained_foldl (h : r.trie.WellFormed) (directory : Path) (requests : List WatchRequest) :
    Drained directory r requests (requests.foldl (Session.registerRequest directory) r) ∧
      (requests.foldl (Session.registerRequest directory) r).trie.WellFormed := by
  induction requests generalizing r with
  | nil => exact ⟨.done r, h⟩
  | cons request rest ih =>
    rw [List.foldl_cons]
    by_cases hwatchable : Watchable (request.seenFrom directory).path
    · obtain ⟨handle, r', hregister⟩ := register_of_watchable h hwatchable request.kind
      have hshape := wellFormed_register h (request.seenFrom directory).path request.kind
      rw [hregister] at hshape
      rw [registerRequest_eq, hregister]
      obtain ⟨hrest, hafter⟩ := ih hshape
      exact ⟨.registered hwatchable hregister hrest, hafter⟩
    · obtain ⟨e, hrefused⟩ := refused_of_not_watchable h hwatchable request.kind
      rw [registerRequest_eq, hrefused]
      obtain ⟨hrest, hafter⟩ := ih h
      exact ⟨.passedOver hwatchable ⟨e, hrefused⟩ hrest, hafter⟩

/-- **What is left is as if only the watchable requests had been made.** Each of these is
registered. -/
theorem Drained.registerAll (h : Drained directory r requests r') :
    r.registerAll (grantable directory requests) = .ok r' := by
  induction h with
  | done r => rfl
  | @registered r r' after request rest handle canBe registers goesOn ih =>
    have hfirst : grantable directory (request :: rest) =
        request.seenFrom directory :: grantable directory rest := by
      simp [grantable, canBe]
    rw [hfirst, registerAll_cons_of_ok registers]
    exact ih
  | @passedOver r after request rest cannotBe refused goesOn ih =>
    have hrest : grantable directory (request :: rest) = grantable directory rest := by
      simp [grantable, cannotBe]
    rw [hrest]
    exact ih

end Registry

end Watch

end BackendSync
