import DistSystem.LabRPC.Network

/-!
# What a step of the network does to a call

A step of the network leaves a call as it is, or takes it to its next place (`Call.Goes`). What
holds of a new call and along `Goes` holds of every call of a run (`call_induction`).
-/

namespace DistSystem.LabRPC

open Interleaving

variable {E S A R : Type}

namespace Event

/-- The event is a step of the call `k`. -/
def Own (k : ℕ) : Event E S A R → Prop
  | enter j => j = k
  | proceed j _ => j = k
  | _ => False

/-- The handler of the call `k` gets into its method. -/
def enters (k : ℕ) : Event E S A R → Bool
  | enter j => j = k
  | _ => false

/-- The method of the call `k` returns. -/
def returns (k : ℕ) : Event E S A R → Bool
  | proceed j (.ret _) => j = k
  | _ => false

/-- The `Call` returns. -/
def replies (k : ℕ) : Event E S A R → Bool
  | proceed j .reply => j = k
  | _ => false

theorem own_of_enters {e : Event E S A R} {k : ℕ} (h : e.enters k = true) : e.Own k := by
  cases e with
  | enter j => exact (of_decide_eq_true h : j = k)
  | _ => cases h

theorem own_of_returns {e : Event E S A R} {k : ℕ} (h : e.returns k = true) : e.Own k := by
  cases e with
  | proceed j x =>
    cases x with
    | ret reply => exact (of_decide_eq_true h : j = k)
    | _ => cases h
  | _ => cases h

theorem own_of_replies {e : Event E S A R} {k : ℕ} (h : e.replies k = true) : e.Own k := by
  cases e with
  | proceed j x =>
    cases x with
    | reply => exact (of_decide_eq_true h : j = k)
    | _ => cases h
  | _ => cases h

theorem own_unique {e : Event E S A R} {j k : ℕ} (hk : e.Own k) (hj : e.Own j) : j = k := by
  cases e with
  | enter i => exact hj.symm.trans hk
  | proceed i x => exact hj.symm.trans hk
  | _ => exact hk.elim

end Event

namespace Call

/-- How a call gets from one place to the next, in the network `rn`. -/
inductive Goes (rn : Network E S A R) (k : ℕ) :
    Call E S A R → Event E S A R → Call E S A R → Prop where
  | stay (c : Call E S A R) (e : Event E S A R) (h : ¬ e.Own k) : Goes rn k c e c
  | read {req : ReqMsg E A} {h : Handler R} {rt : Route S}
      (hrt : rn.readEndnameInfo req.endname = some rt) :
      Goes rn k ⟨req, .reading, h⟩ (.proceed k .read) ⟨req, .delaying rt, h⟩
  | refuse {req : ReqMsg E A} {h : Handler R} (hrt : rn.readEndnameInfo req.endname = none) :
      Goes rn k ⟨req, .reading, h⟩ (.proceed k .read) ⟨req, .refusing, h⟩
  | timeout {req : ReqMsg E A} {h : Handler R} :
      Goes rn k ⟨req, .refusing, h⟩ (.proceed k .timeout) ⟨req, .replying none, h⟩
  | drop {req : ReqMsg E A} {h : Handler R} {rt : Route S} (hr : rt.reliable = false) :
      Goes rn k ⟨req, .delaying rt, h⟩ (.proceed k .drop) ⟨req, .replying none, h⟩
  | dispatch {req : ReqMsg E A} {h : Handler R} {rt : Route S} :
      Goes rn k ⟨req, .delaying rt, h⟩ (.proceed k .dispatch)
        ⟨req, .waiting rt, .dispatching rt.server⟩
  | enter {req : ReqMsg E A} {st : Stage S R} {server : ℕ} :
      Goes rn k ⟨req, st, .dispatching server⟩ (.enter k) ⟨req, st, .running server⟩
  | ret {req : ReqMsg E A} {st : Stage S R} {server : ℕ} {reply : R} :
      Goes rn k ⟨req, st, .running server⟩ (.proceed k (.ret reply))
        ⟨req, st, .returned server reply⟩
  | recv {req : ReqMsg E A} {rt : Route S} {server : ℕ} {reply : R} :
      Goes rn k ⟨req, .waiting rt, .returned server reply⟩ (.proceed k .recv)
        ⟨req, .checking rt (some reply), .ended server⟩
  | alive {req : ReqMsg E A} {rt : Route S} {h : Handler R}
      (ha : rn.isServerDead req.endname rt.servername rt.server = false) :
      Goes rn k ⟨req, .waiting rt, h⟩ (.proceed k .poll) ⟨req, .waiting rt, h⟩
  | dead {req : ReqMsg E A} {rt : Route S} {h : Handler R}
      (hd : rn.isServerDead req.endname rt.servername rt.server = true) :
      Goes rn k ⟨req, .waiting rt, h⟩ (.proceed k .poll) ⟨req, .checking rt none, h⟩
  | pass {req : ReqMsg E A} {rt : Route S} {reply : R} {h : Handler R}
      (ha : rn.isServerDead req.endname rt.servername rt.server = false) :
      Goes rn k ⟨req, .checking rt (some reply), h⟩ (.proceed k .check) ⟨req, .deciding rt reply, h⟩
  | fail {req : ReqMsg E A} {rt : Route S} {reply : R} {h : Handler R}
      (hd : rn.isServerDead req.endname rt.servername rt.server = true) :
      Goes rn k ⟨req, .checking rt (some reply), h⟩ (.proceed k .check) ⟨req, .replying none, h⟩
  | giveUp {req : ReqMsg E A} {rt : Route S} {h : Handler R} :
      Goes rn k ⟨req, .checking rt none, h⟩ (.proceed k .check) ⟨req, .replying none, h⟩
  | lose {req : ReqMsg E A} {rt : Route S} {reply : R} {h : Handler R}
      (hr : rt.reliable = false) :
      Goes rn k ⟨req, .deciding rt reply, h⟩ (.proceed k .lose) ⟨req, .replying none, h⟩
  | hold {req : ReqMsg E A} {rt : Route S} {reply : R} {h : Handler R}
      (hr : rt.longreordering = true) :
      Goes rn k ⟨req, .deciding rt reply, h⟩ (.proceed k .hold) ⟨req, .holding reply, h⟩
  | wake {req : ReqMsg E A} {reply : R} {h : Handler R} :
      Goes rn k ⟨req, .holding reply, h⟩ (.proceed k .wake) ⟨req, .replying (some reply), h⟩
  | deliver {req : ReqMsg E A} {rt : Route S} {reply : R} {h : Handler R} :
      Goes rn k ⟨req, .deciding rt reply, h⟩ (.proceed k .deliver) ⟨req, .replying (some reply), h⟩
  | reply {req : ReqMsg E A} {rep : Option R} {h : Handler R} :
      Goes rn k ⟨req, .replying rep, h⟩ (.proceed k .reply) ⟨req, .replied rep, h⟩

variable {rn : Network E S A R} {c c' : Call E S A R} {k : ℕ} {x : Step R}

theorem goes_of_next (h : c.next rn x = some c') : c.Goes rn k (.proceed k x) c' := by
  obtain ⟨req, st, hd⟩ := c
  cases x <;> simp only [next] at h
  case ret reply =>
    split at h
    · obtain rfl := Option.some.inj h
      exact .ret
    · cases h
  case recv =>
    split at h
    · obtain rfl := Option.some.inj h
      exact .recv
    · cases h
  all_goals
    rcases st with _ | _ | rt | rt | ⟨rt, _ | reply⟩ | ⟨rt, reply⟩ | reply | rep | rep <;>
      simp only [Option.some.injEq, reduceCtorEq] at h
  case read =>
    split at h
    · obtain rfl := Option.some.inj h
      exact .read ‹_›
    · obtain rfl := Option.some.inj h
      exact .refuse ‹_›
  case drop =>
    split_ifs at h with hr
    obtain rfl := Option.some.inj h
    exact .drop (by simpa using hr)
  case poll =>
    split_ifs at h with hd
    · obtain rfl := Option.some.inj h
      exact .dead hd
    · obtain rfl := Option.some.inj h
      exact .alive (by simpa using hd)
  case check.checking.some =>
    split_ifs at h with hd
    · obtain rfl := Option.some.inj h
      exact .fail hd
    · obtain rfl := Option.some.inj h
      exact .pass (by simpa using hd)
  case lose =>
    split_ifs at h with hr
    obtain rfl := Option.some.inj h
    exact .lose (by simpa using hr)
  case hold =>
    split_ifs at h with hr
    obtain rfl := Option.some.inj h
    exact .hold hr
  all_goals
    subst h
    constructor

/-- The request of a call is that of its `Call`. -/
theorem Goes.req {e : Event E S A R} (h : c.Goes rn k e c') : c'.req = c.req := by
  cases h <;> rfl

theorem Goes.eq_of_not_own {e : Event E S A R} (h : c.Goes rn k e c') (hno : ¬ e.Own k) :
    c' = c := by
  cases h with
  | stay => rfl
  | _ => exact absurd rfl hno

end Call

namespace Network

/-- A call finds the server that its end is connected to. -/
theorem readEndnameInfo_eq_some {rn : Network E S A R} {endname : E} {rt : Route S}
    (h : rn.readEndnameInfo endname = some rt) :
    rn.enabled endname = true ∧ rn.connections endname = some rt.servername ∧
      rn.servers rt.servername = some rt.server := by
  unfold readEndnameInfo at h
  split_ifs at h with hen
  split at h
  · cases h
  · split at h
    · cases h
    · obtain rfl := Option.some.inj h
      exact ⟨hen, ‹_›, ‹_›⟩

variable [DecidableEq E] [DecidableEq S] {rn rn' : Network E S A R} {e : Event E S A R} {k : ℕ}
  {c c' : Call E S A R} {t : List (Event E S A R)}

theorem next_of_step (h : step e rn = some rn') : rn.crash = none ∧ rn.next e = some rn' := by
  unfold step at h
  split at h
  · exact ⟨‹_›, h⟩
  · cases h

theorem of_next_enter (h : rn.next (.enter k) = some rn') :
    ∃ req st server rs rs', rn.calls[k]? = some ⟨req, st, .dispatching server⟩ ∧
      rn.objects[server]? = some rs ∧ rs.dispatch req.svcMeth = .ok rs' ∧
      rn' = { rn with
        objects := rn.objects.set server rs'
        calls := rn.calls.set k ⟨req, st, .running server⟩ } := by
  simp only [next] at h
  split at h
  case h_2 => cases h
  case h_1 req st server hc =>
    split at h
    case h_2 => cases h
    case h_1 rs' hd =>
      obtain ⟨rs, hrs, hd⟩ := Option.map_eq_some_iff.mp hd
      exact ⟨req, st, server, rs, rs', hc, hrs, hd, (Option.some.inj h).symm⟩

theorem of_next_abort (h : rn.next (.abort k) = some rn') :
    ∃ crash, rn' = { rn with crash := some crash } := by
  simp only [next] at h
  split at h
  · split at h
    · exact ⟨_, (Option.some.inj h).symm⟩
    · cases h
  · cases h

theorem of_next_proceed {x : Step R} (h : rn.next (.proceed k x) = some rn') :
    ∃ c c', rn.calls[k]? = some c ∧ c.next rn x = some c' ∧
      rn' = { rn with calls := rn.calls.set k c' } := by
  simp only [next] at h
  split at h
  · obtain ⟨c', hc', rfl⟩ := Option.map_eq_some_iff.mp h
    exact ⟨_, c', ‹_›, hc', rfl⟩
  · cases h

theorem of_next_makeEnd {endname : E} (h : rn.next (.makeEnd endname) = some rn') :
    (∃ crash, rn' = { rn with crash := some crash }) ∨
      rn.ends endname = false ∧ rn' = { rn with
        ends := Function.update rn.ends endname true
        enabled := Function.update rn.enabled endname false
        connections := Function.update rn.connections endname none } := by
  simp only [next] at h
  split_ifs at h with hend
  · exact .inl ⟨_, (Option.some.inj h).symm⟩
  · exact .inr ⟨by simpa using hend, (Option.some.inj h).symm⟩

theorem of_next_addServer {servername : S} {server : ℕ}
    (h : rn.next (.addServer servername server) = some rn') :
    server < rn.objects.length ∧
      rn' = { rn with servers := Function.update rn.servers servername (some server) } := by
  simp only [next] at h
  split_ifs at h with hlt
  exact ⟨hlt, (Option.some.inj h).symm⟩

/-- An event that is not a step of a call leaves the calls alone, or brings a new one. -/
theorem calls_of_not_own (h : rn.next e = some rn') (he : ∀ j, ¬ e.Own j) :
    rn'.calls = rn.calls ∨
      ∃ req, e = .call req ∧ rn'.calls = rn.calls ++ [⟨req, .reading, .unborn⟩] := by
  cases e with
  | enter j => exact absurd rfl (he j)
  | proceed j x => exact absurd rfl (he j)
  | call req =>
    obtain rfl := Option.some.inj h
    exact .inr ⟨req, rfl, rfl⟩
  | makeEnd endname => rcases of_next_makeEnd h with ⟨_, rfl⟩ | ⟨-, rfl⟩ <;> exact .inl rfl
  | addServer servername server =>
    obtain ⟨-, rfl⟩ := of_next_addServer h
    exact .inl rfl
  | abort j =>
    obtain ⟨_, rfl⟩ := of_next_abort h
    exact .inl rfl
  | _ =>
    obtain rfl := Option.some.inj h
    exact .inl rfl

/-- A step of the call `k` takes it to its next place. -/
theorem calls_of_own (h : rn.next e = some rn') (he : e.Own k) :
    ∃ c c', rn.calls[k]? = some c ∧ c.Goes rn k e c' ∧ rn'.calls = rn.calls.set k c' := by
  cases e with
  | enter j =>
    obtain rfl : j = k := he
    obtain ⟨req, st, server, rs, rs', hc, -, -, rfl⟩ := of_next_enter h
    exact ⟨_, _, hc, .enter, rfl⟩
  | proceed j x =>
    obtain rfl : j = k := he
    obtain ⟨c, c', hc, hc', rfl⟩ := of_next_proceed h
    exact ⟨c, c', hc, Call.goes_of_next hc', rfl⟩
  | _ => exact he.elim

/-- A step seen from a call that is there after it. -/
theorem call_of_step (h : step e rn = some rn') (hc : rn'.calls[k]? = some c') :
    (k = rn.calls.length ∧ ∃ req, e = .call req ∧ c' = ⟨req, .reading, .unborn⟩) ∨
      ∃ c, rn.calls[k]? = some c ∧ c.Goes rn k e c' := by
  obtain ⟨-, h⟩ := next_of_step h
  by_cases hown : ∃ j, e.Own j
  · obtain ⟨j, hj⟩ := hown
    obtain ⟨c, d, hcj, hgo, hcalls⟩ := calls_of_own h hj
    rw [hcalls, List.getElem?_set] at hc
    rcases eq_or_ne j k with rfl | hne
    · have hlt := (List.getElem?_eq_some_iff.mp hcj).1
      simp only [if_true, if_pos hlt, Option.some.injEq] at hc
      exact .inr ⟨c, hcj, hc ▸ hgo⟩
    · rw [if_neg hne] at hc
      exact .inr ⟨c', hc, .stay _ _ fun hk => hne (Event.own_unique hk hj)⟩
  · have hno : ∀ j, ¬ e.Own j := fun j hj => hown ⟨j, hj⟩
    rcases calls_of_not_own h hno with hcalls | ⟨req, rfl, hcalls⟩
    · exact .inr ⟨c', hcalls ▸ hc, .stay _ _ (hno k)⟩
    · rw [hcalls] at hc
      rcases of_getElem?_concat hc with hc | ⟨hk, hc⟩
      · exact .inr ⟨c', hc, .stay _ _ (hno k)⟩
      · exact .inl ⟨hk, req, rfl, hc.symm⟩

/-- A step seen from a call that is there before it. -/
theorem exists_call_of_step (h : step e rn = some rn') (hc : rn.calls[k]? = some c) :
    ∃ c', rn'.calls[k]? = some c' ∧ c.Goes rn k e c' := by
  have hlt := (List.getElem?_eq_some_iff.mp hc).1
  have hlen : rn.calls.length ≤ rn'.calls.length := by
    by_cases hown : ∃ j, e.Own j
    · obtain ⟨j, hj⟩ := hown
      obtain ⟨_, _, _, _, hcalls⟩ := calls_of_own (next_of_step h).2 hj
      simp [hcalls]
    · rcases calls_of_not_own (next_of_step h).2 (fun j hj => hown ⟨j, hj⟩) with
        hcalls | ⟨req, -, hcalls⟩ <;> simp [hcalls]
  obtain ⟨c', hc'⟩ : ∃ c', rn'.calls[k]? = some c' :=
    ⟨_, List.getElem?_eq_getElem (by omega)⟩
  refine ⟨c', hc', ?_⟩
  rcases call_of_step h hc' with ⟨rfl, -⟩ | ⟨d, hd, hgo⟩
  · omega
  · rw [hc] at hd
    exact Option.some.inj hd ▸ hgo

/-- What holds of a new call and along `Goes` holds of every call of a run. -/
theorem call_induction {P : List (Event E S A R) → Call E S A R → Prop}
    (hnew : ∀ t s req, runs step makeNetwork t = some s → s.calls.length = k →
      P (t ++ [.call req]) ⟨req, .reading, .unborn⟩)
    (hstep : ∀ t s c e c', runs step makeNetwork t = some s → s.calls[k]? = some c → P t c →
      c.Goes s k e c' → P (t ++ [e]) c')
    (h : runs step makeNetwork t = some rn) (hc : rn.calls[k]? = some c) : P t c := by
  refine runs_induction (P := fun t s => ∀ c, s.calls[k]? = some c → P t c) ?_ ?_ h c hc
  · intro c hc
    simp [makeNetwork] at hc
  · intro t s₁ e s₂ h₁ ih h₂ c' hc'
    rcases call_of_step h₂ hc' with ⟨hk, req, rfl, rfl⟩ | ⟨c, hc, hgo⟩
    · exact hnew t s₁ req h₁ hk.symm
    · exact hstep t s₁ c e c' h₁ hc (ih c hc) hgo

/-- A call takes no steps before it is there. -/
theorem not_own_of_runs (h : runs step makeNetwork t = some rn) (hk : rn.calls.length ≤ k) :
    ∀ e ∈ t, ¬ e.Own k := by
  refine runs_induction (P := fun t s => s.calls.length ≤ k → ∀ e ∈ t, ¬ e.Own k) ?_ ?_ h hk
  · simp
  · intro t s₁ e s₂ _ ih h₂ hlen e' he'
    have hle : s₁.calls.length ≤ k := by
      by_contra hlt
      obtain ⟨_, hc', -⟩ := exists_call_of_step h₂
        (List.getElem?_eq_getElem (not_le.mp hlt) : s₁.calls[k]? = _)
      have := (List.getElem?_eq_some_iff.mp hc').1
      omega
    rcases List.mem_append.mp he' with he' | he'
    · exact ih hle e' he'
    · obtain rfl := List.mem_singleton.mp he'
      intro hown
      obtain ⟨_, _, hc, -⟩ := calls_of_own (next_of_step h₂).2 hown
      have := (List.getElem?_eq_some_iff.mp hc).1
      omega

end Network

end DistSystem.LabRPC
