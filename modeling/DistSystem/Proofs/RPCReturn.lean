import DistSystem.Proofs.RPCCall

/-!
# Calls that return, and goroutines that do not

From every reachable state a `Call` gets to its return by steps of its own, once its method has
returned (`call_returns`); until then it waits in the loop, unless the connection is cut. A handler
that returns after `ProcessReq` has left the loop stays at its send for good, and only such a
handler does (`leaks_iff`).
-/

namespace DistSystem.LabRPC

open Interleaving

variable {E S A R : Type}

/-! ## What is left to do -/

namespace Stage

def rank : Stage S R → ℕ
  | reading => 7
  | delaying _ => 6
  | waiting _ => 5
  | checking _ _ => 4
  | deciding _ _ => 3
  | refusing => 2
  | holding _ => 2
  | replying _ => 1
  | replied _ => 0

end Stage

namespace Handler

def rank : Handler R → ℕ
  | dispatching _ => 3
  | running _ => 2
  | returned _ _ => 1
  | _ => 0

/-- The server that the handler is for. -/
def server : Handler R → Option ℕ
  | unborn => none
  | dispatching server => some server
  | running server => some server
  | returned server _ => some server
  | ended server => some server

/-- The handler has got into its method, at the server `p`. -/
def enteredAt (p : ℕ) : Handler R → Bool
  | running server => server = p
  | returned server _ => server = p
  | ended server => server = p
  | _ => false

theorem server_of_enteredAt {p : ℕ} {hd : Handler R} (h : hd.enteredAt p = true) :
    hd.server = some p := by
  cases hd <;> simp_all [enteredAt, server]

end Handler

namespace Call

variable {rn : Network E S A R} {k : ℕ} {c c' : Call E S A R} {e : Event E S A R}

/-- A bound on the steps that a call can take, other than to go on waiting. -/
def rank (c : Call E S A R) : ℕ := 4 * c.stage.rank + c.handler.rank

/-- A call goes on, or stays where it is. -/
theorem Goes.rank_lt (h : c.Goes rn k e c') : c' = c ∨ c'.rank < c.rank := by
  cases h with
  | stay => exact .inl rfl
  | alive => exact .inl rfl
  | dispatch =>
    refine .inr ?_
    simp only [rank, Stage.rank, Handler.rank]
    omega
  | _ =>
    refine .inr ?_
    simp only [rank, Stage.rank, Handler.rank]
    omega

theorem rank_pos (hr : ∀ rep, c.stage ≠ .replied rep) : 0 < c.rank := by
  obtain ⟨req, st, hd⟩ := c
  cases st with
  | replied rep => exact absurd rfl (hr rep)
  | _ =>
    simp only [rank, Stage.rank]
    omega

/-- The call waits for its method, on a server that is there. -/
def Blocked (rn : Network E S A R) (c : Call E S A R) : Prop :=
  ∃ rt server, c.stage = .waiting rt ∧ c.handler = .running server ∧
    rn.isServerDead c.req.endname rt.servername rt.server = false

end Call

namespace Network

variable {rn rn' : Network E S A R} {k : ℕ} {c c' : Call E S A R} {t : List (Event E S A R)}
  {e : Event E S A R}

/-! ## Servers are there -/

/-- There is an object for every server. -/
structure Pointed (rn : Network E S A R) : Prop where
  servers : ∀ name server, rn.servers name = some server → server < rn.objects.length
  routes : ∀ (k : ℕ) c rt, rn.calls[k]? = some c → c.stage = .delaying rt →
    rt.server < rn.objects.length
  handlers : ∀ (k : ℕ) c server, rn.calls[k]? = some c → c.handler.server = some server →
    server < rn.objects.length

theorem Pointed.route_goes (h : Pointed rn) (hc : rn.calls[k]? = some c) (hgo : c.Goes rn k e c')
    {rt : Route S} (hst : c'.stage = .delaying rt) : rt.server < rn.objects.length := by
  cases hgo with
  | stay => exact h.routes k _ rt hc hst
  | enter => exact h.routes k _ rt hc hst
  | ret => exact h.routes k _ rt hc hst
  | read hrt =>
    cases hst
    exact h.servers _ _ (readEndnameInfo_eq_some hrt).2.2
  | _ => cases hst

theorem Pointed.handler_goes (h : Pointed rn) (hc : rn.calls[k]? = some c)
    (hgo : c.Goes rn k e c') {server : ℕ} (hhd : c'.handler.server = some server) :
    server < rn.objects.length := by
  cases hgo with
  | dispatch =>
    cases hhd
    exact h.routes k _ _ hc rfl
  | _ => exact h.handlers k _ server hc hhd

/-! ## What a server has handled -/

/-- The calls that the server `p` has handled, or is about to. -/
def handled (rn : Network E S A R) (p : ℕ) : ℕ := rn.calls.countP fun c => c.handler.enteredAt p

theorem countP_set_of_eq {α : Type} {l : List α} {f : α → Bool} {a a' : α}
    (hc : l[k]? = some a) (hf : f a' = f a) : (l.set k a').countP f = l.countP f := by
  obtain ⟨hlt, rfl⟩ := List.getElem?_eq_some_iff.mp hc
  rw [List.countP_set hlt, hf]
  have hle : (if f l[k] = true then 1 else 0) ≤ l.countP f := by
    split_ifs with hp
    · exact List.countP_pos_iff.mpr ⟨_, List.getElem_mem hlt, hp⟩
    · exact Nat.zero_le _
  omega

theorem countP_set_of_lt {α : Type} {l : List α} {f : α → Bool} {a a' : α}
    (hc : l[k]? = some a) (hf : f a = false) (hf' : f a' = true) :
    (l.set k a').countP f = l.countP f + 1 := by
  obtain ⟨hlt, rfl⟩ := List.getElem?_eq_some_iff.mp hc
  simp [List.countP_set hlt, hf, hf']

/-- Every server has counted the calls that it handled. -/
def Counted (rn : Network E S A R) : Prop :=
  ∀ (p : ℕ) rs, rn.objects[p]? = some rs → rs.count = rn.handled p

/-- A server that is not there yet has handled nothing. -/
theorem Pointed.handled_eq_zero (h : Pointed rn) {p : ℕ} (hp : rn.objects.length ≤ p) :
    rn.handled p = 0 := by
  refine List.countP_eq_zero.mpr fun c hc hat => ?_
  obtain ⟨k, hk⟩ := List.getElem?_of_mem hc
  have := h.handlers k c p hk (Handler.server_of_enteredAt hat)
  omega

theorem enteredAt_goes (hun : ∀ rt, c.stage = .delaying rt → c.handler = .unborn)
    (hgo : c.Goes rn k e c') (hne : e ≠ .enter k) (p : ℕ) :
    c'.handler.enteredAt p = c.handler.enteredAt p := by
  cases hgo with
  | enter => exact absurd rfl hne
  | dispatch =>
    obtain rfl := hun _ rfl
    rfl
  | _ => rfl

theorem count_dispatch {rs rs' : Server} {svcMeth : MapReduce.Str}
    (h : rs.dispatch svcMeth = .ok rs') : rs'.count = rs.count + 1 := by
  unfold Server.dispatch at h
  simp only at h
  split at h
  · cases h
  · split at h
    · cases h
    · split_ifs at h
      obtain rfl := Except.ok.inj h
      rfl

theorem count_foldl (services : List Service) (rs : Server) :
    (services.foldl Server.addService rs).count = rs.count := by
  induction services generalizing rs with
  | nil => rfl
  | cons svc services ih => exact ih _

/-! ## What is given up -/

/-- `ProcessReq` has left the loop with nothing from `ech`. -/
def GivenUp (c : Call E S A R) : Prop :=
  match c.stage with
  | .checking _ none => True
  | .replying none => True
  | .replied none => True
  | _ => False

theorem GivenUp.goes (h : GivenUp c) {server : ℕ} {reply : R}
    (hd : c.handler = .returned server reply) (hgo : c.Goes rn k e c') :
    GivenUp c' ∧ c'.handler = .returned server reply := by
  cases hgo with
  | stay => exact ⟨h, hd⟩
  | enter => cases hd
  | ret => cases hd
  | giveUp => exact ⟨trivial, hd⟩
  | @reply req rep hd' =>
    cases rep with
    | none => exact ⟨trivial, hd⟩
    | some r => exact h.elim
  | _ => exact h.elim

variable [DecidableEq E] [DecidableEq S]

/-- Objects stay, and a name is given to an object only. -/
theorem objects_of_next (h : rn.next e = some rn') :
    rn.objects.length ≤ rn'.objects.length ∧ ∀ name server, rn'.servers name = some server →
      rn.servers name = some server ∨ server < rn.objects.length := by
  cases e with
  | makeEnd endname =>
    rcases of_next_makeEnd h with ⟨_, rfl⟩ | ⟨-, rfl⟩ <;> exact ⟨le_rfl, fun _ _ => .inl⟩
  | makeServer services =>
    obtain rfl := Option.some.inj h
    exact ⟨by simp, fun _ _ => .inl⟩
  | addServer servername server =>
    obtain ⟨hlt, rfl⟩ := of_next_addServer h
    refine ⟨le_rfl, fun name server' hs => ?_⟩
    simp only [Function.update_apply] at hs
    split_ifs at hs
    · exact .inr (Option.some.inj hs ▸ hlt)
    · exact .inl hs
  | deleteServer servername =>
    obtain rfl := Option.some.inj h
    refine ⟨le_rfl, fun name server' hs => ?_⟩
    simp only [Function.update_apply] at hs
    split_ifs at hs
    exact .inl hs
  | enter j =>
    obtain ⟨_, _, _, _, _, -, -, -, rfl⟩ := of_next_enter h
    exact ⟨by simp, fun _ _ => .inl⟩
  | abort j =>
    obtain ⟨_, rfl⟩ := of_next_abort h
    exact ⟨le_rfl, fun _ _ => .inl⟩
  | proceed j x =>
    obtain ⟨_, _, -, -, rfl⟩ := of_next_proceed h
    exact ⟨le_rfl, fun _ _ => .inl⟩
  | _ =>
    obtain rfl := Option.some.inj h
    exact ⟨le_rfl, fun _ _ => .inl⟩

theorem Pointed.step (h : Pointed rn) (hstep : step e rn = some rn') : Pointed rn' := by
  obtain ⟨hlen, hsrv⟩ := objects_of_next (next_of_step hstep).2
  refine ⟨fun name server hs => ?_, fun k c' rt hc' hst => ?_, fun k c' server hc' hhd => ?_⟩
  · rcases hsrv name server hs with hs | hlt
    · exact (h.servers name server hs).trans_le hlen
    · exact hlt.trans_le hlen
  · rcases call_of_step hstep hc' with ⟨-, req, -, rfl⟩ | ⟨c, hc, hgo⟩
    · cases hst
    · exact (h.route_goes hc hgo hst).trans_le hlen
  · rcases call_of_step hstep hc' with ⟨-, req, -, rfl⟩ | ⟨c, hc, hgo⟩
    · cases hhd
    · exact (h.handler_goes hc hgo hhd).trans_le hlen

theorem pointed_of_runs (h : runs step makeNetwork t = some rn) : Pointed rn :=
  runs_induction (P := fun _ s => Pointed s)
    ⟨fun _ _ h => (by cases h), fun _ _ _ h => (by simp [makeNetwork] at h),
      fun _ _ _ h => (by simp [makeNetwork] at h)⟩
    (fun _ _ _ _ _ ih hstep => ih.step hstep) h

theorem Sound.unborn (hs : Sound k t c) {rt : Route S} (hst : c.stage = .delaying rt) :
    c.handler = .unborn := by
  obtain ⟨req, st, hd⟩ := c
  subst hst
  cases hd with
  | unborn => rfl
  | _ => exact hs.elim

theorem Counted.step (h : Counted rn) (hrun : runs step makeNetwork t = some rn)
    (hstep : step e rn = some rn') : Counted rn' := by
  have hp := pointed_of_runs hrun
  obtain ⟨-, hstep⟩ := next_of_step hstep
  intro p rs hobj
  cases e with
  | enter j =>
    obtain ⟨req, st, server, rs₀, rs', hc, hrs₀, hdisp, rfl⟩ := of_next_enter hstep
    rcases eq_or_ne server p with rfl | hne
    · have hlt := (List.getElem?_eq_some_iff.mp hrs₀).1
      rw [List.getElem?_set_self hlt] at hobj
      obtain rfl := Option.some.inj hobj
      rw [count_dispatch hdisp, h server rs₀ hrs₀]
      exact (countP_set_of_lt hc (by simp [Handler.enteredAt]) (by simp [Handler.enteredAt])).symm
    · rw [List.getElem?_set_ne hne] at hobj
      rw [h p rs hobj]
      exact (countP_set_of_eq hc (by simp [Handler.enteredAt, hne])).symm
  | proceed j x =>
    obtain ⟨c, c', hc, hc', rfl⟩ := of_next_proceed hstep
    rw [h p rs hobj]
    exact (countP_set_of_eq hc (enteredAt_goes (fun rt => (sound_of_runs hrun hc).unborn)
      (Call.goes_of_next (k := j) hc') (by simp) p)).symm
  | makeServer services =>
    obtain rfl := Option.some.inj hstep
    rw [List.getElem?_append] at hobj
    split_ifs at hobj with hlt
    · exact h p rs hobj
    · obtain rfl := List.mem_singleton.mp (List.mem_of_getElem? hobj)
      rw [count_foldl]
      exact (hp.handled_eq_zero (not_lt.mp hlt)).symm
  | call req =>
    obtain rfl := Option.some.inj hstep
    rw [h p rs hobj]
    simp [handled, Handler.enteredAt]
  | makeEnd endname =>
    rcases of_next_makeEnd hstep with ⟨_, rfl⟩ | ⟨-, rfl⟩ <;> exact h p rs hobj
  | addServer servername server =>
    obtain ⟨-, rfl⟩ := of_next_addServer hstep
    exact h p rs hobj
  | abort j =>
    obtain ⟨_, rfl⟩ := of_next_abort hstep
    exact h p rs hobj
  | _ =>
    obtain rfl := Option.some.inj hstep
    exact h p rs hobj

/-- `GetCount` gives the number of calls that the server's methods were called for. -/
theorem getCount_eq (h : runs step makeNetwork t = some rn) {name : S} {server : ℕ}
    (hs : rn.servers name = some server) : rn.getCount name = .ok (rn.handled server) := by
  have hcnt : Counted rn :=
    runs_induction (P := fun _ s => Counted s) (fun p rs hobj => (by simp [makeNetwork] at hobj))
      (fun _ _ _ _ hrun ih hstep => ih.step hrun hstep) h
  have hlt := (pointed_of_runs h).servers name server hs
  have hobj : rn.objects[server]? = some rn.objects[server] := List.getElem?_eq_getElem hlt
  simp only [getCount, hs, Option.bind_some, hobj, hcnt server _ hobj]

theorem getCount_eq_underWay : ∃ rn : Network ℕ ℕ ℕ ℕ,
    runs step makeNetwork underWay = some rn ∧ rn.servers 0 = some 0 ∧
      rn.getCount 0 = .ok (rn.handled 0) := by
  have hsrv : (runs step makeNetwork underWay).bind (fun rn => rn.servers 0) = some 0 := by decide
  obtain ⟨rn, h, hs⟩ := Option.bind_eq_some_iff.mp hsrv
  exact ⟨rn, h, hs, getCount_eq h hs⟩

/-! ## Returning -/

theorem step_proceed (hcr : rn.crash = none) (hc : rn.calls[k]? = some c) {x : Step R}
    (hx : c.next rn x = some c') :
    step (.proceed k x) rn = some { rn with calls := rn.calls.set k c' } := by
  simp only [step, hcr, next, hc, hx, Option.map_some]

/-- What a call that has not returned does next. -/
theorem exists_next (hs : Sound k t c) (hr : ∀ rep, c.stage ≠ .replied rep) :
    (∃ x c', c.next rn x = some c' ∧ c' ≠ c ∧ ∀ reply, x ≠ .ret reply) ∨
      c.Blocked rn ∨ ∃ server, c.handler = .dispatching server := by
  obtain ⟨req, st, hd⟩ := c
  rcases st with _ | _ | rt | rt | ⟨rt, _ | r⟩ | ⟨rt, r⟩ | r | rep | rep
  case reading =>
    rcases hrt : rn.readEndnameInfo req.endname with _ | rt
    · exact .inl ⟨.read, ⟨req, .refusing, hd⟩, by simp [Call.next, hrt], by simp, by simp⟩
    · exact .inl ⟨.read, ⟨req, .delaying rt, hd⟩, by simp [Call.next, hrt], by simp, by simp⟩
  case refusing => exact .inl ⟨.timeout, _, rfl, by simp, by simp⟩
  case delaying => exact .inl ⟨.dispatch, _, rfl, by simp, by simp⟩
  case waiting =>
    cases hd with
    | dispatching server => exact .inr (.inr ⟨server, rfl⟩)
    | returned server r => exact .inl ⟨.recv, _, rfl, by simp, by simp⟩
    | running server =>
      by_cases hdead : rn.isServerDead req.endname rt.servername rt.server = true
      · exact .inl ⟨.poll, ⟨req, .checking rt none, .running server⟩, by simp [Call.next, hdead],
          by simp, by simp⟩
      · exact .inr (.inl ⟨rt, server, rfl, rfl, by simpa using hdead⟩)
    | _ => exact hs.elim
  case checking.none => exact .inl ⟨.check, _, rfl, by simp, by simp⟩
  case checking.some =>
    by_cases hdead : rn.isServerDead req.endname rt.servername rt.server = true
    · exact .inl ⟨.check, ⟨req, .replying none, hd⟩, by simp [Call.next, hdead], by simp, by simp⟩
    · exact .inl ⟨.check, ⟨req, .deciding rt r, hd⟩, by simp [Call.next, hdead], by simp, by simp⟩
  case deciding => exact .inl ⟨.deliver, _, rfl, by simp, by simp⟩
  case holding => exact .inl ⟨.wake, _, rfl, by simp, by simp⟩
  case replying => exact .inl ⟨.reply, _, rfl, by simp, by simp⟩
  case replied => exact absurd rfl (hr rep)

/-- The handler of a call gets into its method, or the process ends. -/
theorem exists_enter (h : Pointed rn) (hcr : rn.crash = none) (hc : rn.calls[k]? = some c)
    {server : ℕ} (hd : c.handler = .dispatching server) :
    (∃ rn', step (.abort k) rn = some rn' ∧ rn'.crash ≠ none) ∨
      ∃ rn', step (.enter k) rn = some rn' ∧
        rn'.calls[k]? = some { c with handler := .running server } := by
  have hlt := (List.getElem?_eq_some_iff.mp hc).1
  have hobj := h.handlers k c server hc (by rw [hd]; rfl)
  obtain ⟨req, st, _⟩ := c
  subst hd
  have hd : rn.dispatch server req.svcMeth = some (rn.objects[server].dispatch req.svcMeth) := by
    simp [dispatch, hobj]
  rcases hdisp : rn.objects[server].dispatch req.svcMeth with crash | rs
  · exact .inl ⟨{ rn with crash := some crash }, by simp [step, hcr, next, hc, hd, hdisp], by simp⟩
  · exact .inr ⟨{ rn with
      objects := rn.objects.set server rs
      calls := rn.calls.set k ⟨req, st, .running server⟩ },
      by simp [step, hcr, next, hc, hd, hdisp], by simp [hlt]⟩

/-- The labels are steps of the call `k`, whose method returns nothing but `reply`. -/
def Alone (k : ℕ) (reply : R) (u : List (Event E S A R)) : Prop :=
  ∀ e ∈ u, (e.Own k ∨ e = .abort k) ∧ ∀ r, e = .proceed k (.ret r) → r = reply

/-- A call that has not returned goes on, if its method returns `reply`. -/
theorem exists_step (h : runs step makeNetwork t = some rn) (hcr : rn.crash = none)
    (hc : rn.calls[k]? = some c) (hr : ∀ rep, c.stage ≠ .replied rep) (reply : R) :
    ∃ e rn', step e rn = some rn' ∧ Alone k reply [e] ∧
      (rn'.crash ≠ none ∨ ∃ c', rn'.calls[k]? = some c' ∧ c'.rank < c.rank) := by
  have hlt := (List.getElem?_eq_some_iff.mp hc).1
  have hnext : (∃ x c', c.next rn x = some c' ∧ c' ≠ c ∧ ∀ reply, x ≠ .ret reply) ∨
      c.Blocked rn ∨ ∃ server, c.handler = .dispatching server :=
    exists_next (sound_of_runs h hc) hr
  rcases hnext with ⟨x, c', hx, hne, hret⟩ | ⟨rt, server, hst, hd, -⟩ | ⟨server, hd⟩
  · refine ⟨_, _, step_proceed hcr hc hx, ?_, .inr ⟨c', by simp [hlt],
      (Call.goes_of_next (k := k) hx).rank_lt.resolve_left hne⟩⟩
    simpa [Alone, Event.Own] using fun r hxr => absurd hxr (hret r)
  · have hx : c.next rn (.ret reply) = some { c with handler := .returned server reply } := by
      simp only [Call.next, hd]
    refine ⟨_, _, step_proceed hcr hc hx, by simp [Alone, Event.Own],
      .inr ⟨_, List.getElem?_set_self hlt, ?_⟩⟩
    simp [Call.rank, hd, Handler.rank]
  · rcases exists_enter (pointed_of_runs h) hcr hc hd with ⟨rn', h', hcr'⟩ | ⟨rn', h', hc'⟩
    · exact ⟨_, rn', h', by simp [Alone], .inl hcr'⟩
    · refine ⟨_, rn', h', by simp [Alone, Event.Own], .inr ⟨_, hc', ?_⟩⟩
      simp [Call.rank, hd, Handler.rank]

/-- Once its method has returned, a call gets to its return by itself. -/
theorem exists_return (h : runs step makeNetwork t = some rn) (hcr : rn.crash = none)
    (hc : rn.calls[k]? = some c) (reply : R) :
    ∃ u rn', runs step rn u = some rn' ∧ Alone k reply u ∧ u.length ≤ c.rank ∧
      (rn'.crash ≠ none ∨ ∃ c' rep, rn'.calls[k]? = some c' ∧ c'.stage = .replied rep) := by
  induction hn : c.rank using Nat.strong_induction_on generalizing t rn c with
  | _ n ih =>
    subst hn
    by_cases hr : ∃ rep, c.stage = .replied rep
    · obtain ⟨rep, hr⟩ := hr
      exact ⟨[], rn, rfl, by simp [Alone], Nat.zero_le _, .inr ⟨c, rep, hc, hr⟩⟩
    · have hr : ∀ rep, c.stage ≠ .replied rep := fun rep hrep => hr ⟨rep, hrep⟩
      have hpos := Call.rank_pos hr
      obtain ⟨e, rn₁, h₁, hal₁, hgo⟩ := exists_step h hcr hc hr reply
      have hrun : runs step rn [e] = some rn₁ := by simpa [runs] using h₁
      by_cases hcr₁ : rn₁.crash = none
      · obtain ⟨c₁, hc₁, hlt⟩ := hgo.resolve_left (absurd hcr₁)
        obtain ⟨u, rn', hu, hal, hlen, hend⟩ := ih c₁.rank hlt (runs_trans h hrun) hcr₁ hc₁ rfl
        refine ⟨e :: u, rn', runs_cons h₁ hu, ?_, by simp only [List.length_cons]; omega, hend⟩
        intro e' he'
        rcases List.mem_cons.mp he' with rfl | he'
        · exact hal₁ e' (List.mem_singleton_self e')
        · exact hal e' he'
      · exact ⟨[e], rn₁, hrun, hal₁, hpos, .inl hcr₁⟩

/-- A call that is blocked has no step of its own but the return of its method. -/
theorem eq_of_blocked (hc : rn.calls[k]? = some c) (hb : c.Blocked rn) (hown : e.Own k)
    (h : step e rn = some rn') (hret : e.returns k = false) : rn'.calls[k]? = some c := by
  obtain ⟨rt, server, hst, hd, ha⟩ := hb
  obtain ⟨c', hc', hgo⟩ := exists_call_of_step h hc
  rw [hc']
  cases hgo with
  | stay => rfl
  | alive => rfl
  | ret => simp [Event.returns] at hret
  | enter => cases hd
  | recv => cases hd
  | @dead req rt' hd' hdead =>
    cases hst
    exact absurd (hdead.symm.trans ha) (by simp)
  | _ => cases hst

/-- A call that is under way can be brought to its return by its own steps, with whatever reply its
method then gives. While the method runs on a server that is there, no other step of the call does
anything. -/
theorem call_returns (h : runs step makeNetwork t = some rn) (hcr : rn.crash = none)
    (hc : rn.calls[k]? = some c) :
    (∀ reply, ∃ u rn', runs step rn u = some rn' ∧ Alone k reply u ∧ u.length ≤ c.rank ∧
      (rn'.crash ≠ none ∨ ∃ c' rep, rn'.calls[k]? = some c' ∧ c'.stage = .replied rep)) ∧
    (c.Blocked rn → ∀ e rn', step e rn = some rn' → e.Own k → e.returns k = false →
      rn'.calls[k]? = some c) :=
  ⟨fun reply => exists_return h hcr hc reply,
    fun hb _ _ hstep hown hret => eq_of_blocked hc hb hown hstep hret⟩

theorem call_returns_underWay : ∃ rn c, runs step makeNetwork underWay = some rn ∧
    rn.crash = none ∧ rn.calls[0]? = some c ∧ c.handler = .running 0 ∧
    (∀ reply, ∃ u rn', runs step rn u = some rn' ∧ Alone 0 reply u ∧ u.length ≤ c.rank ∧
      (rn'.crash ≠ none ∨ ∃ c' rep, rn'.calls[0]? = some c' ∧ c'.stage = .replied rep)) ∧
    (c.Blocked rn → ∀ e rn', step e rn = some rn' → e.Own 0 → e.returns 0 = false →
      rn'.calls[0]? = some c) := by
  obtain ⟨rn, c, h, hc, -, hd, hcr⟩ := of_firstCall
    (by decide : firstCall underWay = some (.waiting ⟨0, 0, true, false⟩, .running 0, none))
  exact ⟨rn, c, h, hcr, hc, hd, call_returns h hcr hc⟩

/-! ## Staying -/

theorem Sound.givenUp (hs : Sound k t c) {server : ℕ} {reply : R}
    (hd : c.handler = .returned server reply) (hst : ∀ rt, c.stage ≠ .waiting rt) : GivenUp c := by
  obtain ⟨req, st, hd⟩ := c
  subst hd
  rcases st with _ | _ | rt | rt | ⟨rt, _ | r⟩ | ⟨rt, r⟩ | r | ⟨_ | r⟩ | ⟨_ | r⟩ <;>
    first
    | exact hs.elim
    | trivial
    | exact absurd rfl (hst rt)

/-- A handler that has been given up stays where it is. -/
theorem stuck_of_runs {u : List (Event E S A R)} (hu : runs step rn u = some rn')
    (hc : rn.calls[k]? = some c) {server : ℕ} {reply : R}
    (hd : c.handler = .returned server reply) (hup : GivenUp c) :
    ∃ c', rn'.calls[k]? = some c' ∧ GivenUp c' ∧ c'.handler = .returned server reply := by
  refine runs_induction (P := fun _ s => ∃ c', s.calls[k]? = some c' ∧ GivenUp c' ∧
    c'.handler = .returned server reply) ⟨c, hc, hup, hd⟩ ?_ hu
  rintro t s₁ e s₂ - ⟨c₁, hc₁, hup₁, hd₁⟩ h₂
  obtain ⟨c₂, hc₂, hgo⟩ := exists_call_of_step h₂ hc₁
  exact ⟨c₂, hc₂, hup₁.goes hd₁ hgo⟩

/-- A handler that is under way, and not waited for, was cut off. -/
def Abandoned (k : ℕ) (t : List (Event E S A R)) (c : Call E S A R) : Prop :=
  0 < c.handler.rank → (∃ rt, c.stage = .waiting rt) ∨ Cut k c.req t

theorem Abandoned.goes (hrun : runs step makeNetwork t = some rn) (hs : Sound k t c)
    (h : Abandoned k t c) (hgo : c.Goes rn k e c') : Abandoned k (t ++ [e]) c' := by
  intro hpos
  cases hgo with
  | stay => exact (h hpos).imp_right (Past.concat · _)
  | dispatch => exact .inl ⟨_, rfl⟩
  | alive => exact .inl ⟨_, rfl⟩
  | recv => exact absurd hpos (lt_irrefl 0)
  | dead hdead => exact .inr (past_concat hrun ⟨.inl rfl, _, hs.routed, hdead⟩)
  | enter => exact (h (by simp [Handler.rank])).imp_right (Past.concat · _)
  | ret => exact (h (by simp [Handler.rank])).imp_right (Past.concat · _)
  | _ => exact .inr (Past.concat ((h hpos).resolve_left (by simp)) _)

/-- The goroutine of a handler that has returned never gets past its send just if `ProcessReq` has
left the loop, which it does when it finds the connection cut. -/
theorem leaks_iff (h : runs step makeNetwork t = some rn) (hcr : rn.crash = none)
    (hc : rn.calls[k]? = some c) {server : ℕ} {reply : R}
    (hd : c.handler = .returned server reply) :
    ((∀ u rn', runs step rn u = some rn' →
        ∃ c', rn'.calls[k]? = some c' ∧ c'.handler = .returned server reply) ↔
      ∀ rt, c.stage ≠ .waiting rt) ∧
    ((∀ rt, c.stage ≠ .waiting rt) → Cut k c.req t) := by
  have hlt := (List.getElem?_eq_some_iff.mp hc).1
  refine ⟨⟨fun hstuck rt hst => ?_, fun hst u rn' hu => ?_⟩, fun hst => ?_⟩
  · have hx : c.next rn .recv = some ⟨c.req, .checking rt (some reply), .ended server⟩ := by
      simp only [Call.next, hst, hd]
    obtain ⟨c', hc', hd'⟩ := hstuck [.proceed k .recv] _
      (by simpa [runs] using step_proceed hcr hc hx)
    rw [List.getElem?_set_self hlt] at hc'
    obtain rfl := Option.some.inj hc'
    cases hd'
  · obtain ⟨c', hc', -, hd'⟩ := stuck_of_runs hu hc hd ((sound_of_runs h hc).givenUp hd hst)
    exact ⟨c', hc', hd'⟩
  · have hab : Abandoned k t c :=
      call_induction (P := Abandoned k) (fun _ _ _ _ _ hpos => absurd hpos (lt_irrefl 0))
        (fun _ _ _ _ _ hrun hc ha hgo => ha.goes hrun (sound_of_runs hrun hc) hgo) h hc
    exact (hab (by simp [hd, Handler.rank])).resolve_left (not_exists.mpr hst)

theorem leaks_iff_abandoned : ∃ rn c, runs step makeNetwork abandoned = some rn ∧
    rn.crash = none ∧ rn.calls[0]? = some c ∧ c.handler = .returned 0 5 ∧
    ((∀ u rn', runs step rn u = some rn' →
        ∃ c', rn'.calls[0]? = some c' ∧ c'.handler = .returned 0 5) ↔
      ∀ rt, c.stage ≠ .waiting rt) ∧
    ((∀ rt, c.stage ≠ .waiting rt) → Cut 0 c.req abandoned) := by
  obtain ⟨rn, c, h, hc, -, hd, hcr⟩ := of_firstCall
    (by decide : firstCall abandoned = some (.replied none, .returned 0 5, none))
  exact ⟨rn, c, h, hcr, hc, hd, leaks_iff h hcr hc hd⟩

end Network

end DistSystem.LabRPC
