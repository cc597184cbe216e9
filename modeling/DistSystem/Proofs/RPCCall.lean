import DistSystem.Proofs.RPCStep

/-!
# What a call can rely on

A `Call` that returns true has the reply of its request: the request was handed once to the server
that the end was connected to, the method returned just this reply, and after that the server was
still the one under its name (`reply_sound`). A `Call` that returns false has a cause in the network
(`failure_cause`).
-/

namespace DistSystem.LabRPC

open Interleaving

variable {E S A R : Type} [DecidableEq E] [DecidableEq S]

namespace Network

variable {rn : Network E S A R} {k : ℕ} {c : Call E S A R} {t : List (Event E S A R)}

/-! ## Where a reply comes from -/

/-- `ReadEndnameInfo` has found this server for the call `k`. -/
def Routed (k : ℕ) (req : ReqMsg E A) (rt : Route S) : List (Event E S A R) → Prop :=
  Past step makeNetwork fun _ s e =>
    e = .proceed k .read ∧ s.readEndnameInfo req.endname = some rt

/-- The handler of the call `k`, for the request `req`, is here. -/
def HandlerAt (rn : Network E S A R) (k : ℕ) (req : ReqMsg E A) (hd : Handler R) : Prop :=
  ∃ st, rn.calls[k]? = some ⟨req, st, hd⟩

/-- The handler of the call `k` got into its method, at the server of the route. -/
def Entered (k : ℕ) (req : ReqMsg E A) (rt : Route S) : List (Event E S A R) → Prop :=
  Past step makeNetwork fun t₁ s e =>
    e = .enter k ∧ s.HandlerAt k req (.dispatching rt.server) ∧ Routed k req rt t₁

/-- The method has returned `reply`. -/
def Handled (k : ℕ) (req : ReqMsg E A) (rt : Route S) (reply : R) :
    List (Event E S A R) → Prop :=
  Past step makeNetwork fun t₁ s e => e = .proceed k (.ret reply) ∧
    s.HandlerAt k req (.running rt.server) ∧ Entered k req rt t₁

/-- After the method had returned the end was enabled, and the server was still there. -/
def Confirmed (k : ℕ) (req : ReqMsg E A) (rt : Route S) (reply : R) :
    List (Event E S A R) → Prop :=
  Past step makeNetwork fun t₁ s e => e = .proceed k .check ∧
    s.isServerDead req.endname rt.servername rt.server = false ∧ Handled k req rt reply t₁

/-- What has happened to a call that is at this place. -/
def Sound (k : ℕ) (t : List (Event E S A R)) (c : Call E S A R) : Prop :=
  match c.stage, c.handler with
  | .reading, .unborn => True
  | .refusing, .unborn => True
  | .delaying rt, .unborn => Routed k c.req rt t
  | .waiting rt, .dispatching server => server = rt.server ∧ Routed k c.req rt t
  | .waiting rt, .running server => server = rt.server ∧ Entered k c.req rt t
  | .waiting rt, .returned server reply => server = rt.server ∧ Handled k c.req rt reply t
  | .checking rt (some reply), .ended _ => Handled k c.req rt reply t
  | .checking _ none, .dispatching _ => True
  | .checking _ none, .running _ => True
  | .checking _ none, .returned _ _ => True
  | .deciding rt reply, .ended _ => Confirmed k c.req rt reply t
  | .holding reply, .ended _ => ∃ rt, Confirmed k c.req rt reply t
  | .replying (some reply), .ended _ => ∃ rt, Confirmed k c.req rt reply t
  | .replied (some reply), .ended _ => ∃ rt, Confirmed k c.req rt reply t
  | .replying none, _ => True
  | .replied none, _ => True
  | _, _ => False

theorem Sound.concat (h : Sound k t c) (e : Event E S A R) : Sound k (t ++ [e]) c := by
  obtain ⟨req, st, hd⟩ := c
  rcases st with _ | _ | rt | rt | ⟨rt, _ | r⟩ | ⟨rt, r⟩ | r | ⟨_ | r⟩ | ⟨_ | r⟩ <;> cases hd <;>
    first
    | exact h.elim
    | trivial
    | exact Past.concat h e
    | exact ⟨h.1, Past.concat h.2 e⟩
    | exact h.imp fun _ h => Past.concat h e

theorem Sound.goes {e : Event E S A R} {c' : Call E S A R}
    (hrun : runs step makeNetwork t = some rn) (hc : rn.calls[k]? = some c) (h : Sound k t c)
    (hgo : c.Goes rn k e c') : Sound k (t ++ [e]) c' := by
  cases hgo with
  | stay => exact h.concat e
  | alive => exact h.concat _
  | @read req hd rt hrt =>
    cases hd <;> first | exact h.elim | exact past_concat hrun ⟨rfl, hrt⟩
  | @refuse req hd => cases hd <;> first | exact h.elim | trivial
  | timeout => trivial
  | drop => trivial
  | @dispatch req hd rt => cases hd <;> first | exact h.elim | exact ⟨rfl, Past.concat h _⟩
  | @enter req st server =>
    rcases st with _ | _ | rt | rt | ⟨rt, _ | r⟩ | ⟨rt, r⟩ | r | ⟨_ | r⟩ | ⟨_ | r⟩ <;>
      first
      | exact h.elim
      | trivial
      | exact ⟨h.1, past_concat hrun ⟨rfl, ⟨_, h.1 ▸ hc⟩, h.2⟩⟩
  | @ret req st server reply =>
    rcases st with _ | _ | rt | rt | ⟨rt, _ | r⟩ | ⟨rt, r⟩ | r | ⟨_ | r⟩ | ⟨_ | r⟩ <;>
      first
      | exact h.elim
      | trivial
      | exact ⟨h.1, past_concat hrun ⟨rfl, ⟨_, h.1 ▸ hc⟩, h.2⟩⟩
  | recv => exact Past.concat h.2 _
  | @dead req rt hd => cases hd <;> first | exact h.elim | trivial
  | @pass req rt reply hd ha =>
    cases hd <;> first | exact h.elim | exact past_concat hrun ⟨rfl, ha, h⟩
  | fail => trivial
  | giveUp => trivial
  | lose => trivial
  | @hold req rt reply hd => cases hd <;> first | exact h.elim | exact ⟨rt, Past.concat h _⟩
  | @wake req reply hd =>
    cases hd <;> first | exact h.elim | exact h.imp fun _ h => Past.concat h _
  | @deliver req rt reply hd => cases hd <;> first | exact h.elim | exact ⟨rt, Past.concat h _⟩
  | @reply req rep hd =>
    rcases rep with _ | reply
    · trivial
    · cases hd <;> first | exact h.elim | exact h.imp fun _ h => Past.concat h _

theorem sound_of_runs (h : runs step makeNetwork t = some rn) (hc : rn.calls[k]? = some c) :
    Sound k t c :=
  call_induction (fun _ _ _ _ _ => trivial)
    (fun _ _ _ _ _ hrun hc hs hgo => hs.goes hrun hc hgo) h hc

theorem Handled.routed {req : ReqMsg E A} {rt : Route S} {reply : R}
    (h : Handled k req rt reply t) : Routed k req rt t := by
  refine Past.join (Past.mono h fun t₂ _ _ h₂ => ?_)
  exact Past.join (Past.mono h₂.2.2 fun t₃ _ _ h₃ => h₃.2.2)

theorem Confirmed.routed {req : ReqMsg E A} {rt : Route S} {reply : R}
    (h : Confirmed k req rt reply t) : Routed k req rt t :=
  Past.join (Past.mono h fun _ _ _ h₁ => Handled.routed h₁.2.2)

/-! ## Once -/

/-- A count of steps of a call that can be read off from where the call is. -/
theorem countP_eq {p : Event E S A R → Bool} {w : Call E S A R → ℕ}
    (hp : ∀ e, p e = true → e.Own k) (hw : ∀ req, w ⟨req, .reading, .unborn⟩ = 0)
    (hgo : ∀ t rn c e c', Sound k t c → c.Goes rn k e c' → e.Own k →
      w c' = w c + if p e then 1 else 0)
    (h : runs step makeNetwork t = some rn) (hc : rn.calls[k]? = some c) : t.countP p = w c := by
  refine call_induction (P := fun t c => t.countP p = w c) ?_ ?_ h hc
  · intro t s req hrun hk
    rw [hw, List.countP_eq_zero]
    intro e he hpe
    rcases List.mem_append.mp he with he | he
    · exact not_own_of_runs hrun hk.le e he (hp e hpe)
    · obtain rfl := List.mem_singleton.mp he
      exact hp _ hpe
  · intro t s c e c' hrun hc ih hgoes
    rw [List.countP_append, ih, List.countP_singleton]
    by_cases hown : e.Own k
    · exact (hgo t s c e c' (sound_of_runs hrun hc) hgoes hown).symm
    · rw [hgoes.eq_of_not_own hown, if_neg fun hpe => hown (hp e hpe), Nat.add_zero]

/-- How often the handler has got into its method. -/
def entries (c : Call E S A R) : ℕ :=
  match c.handler with
  | .unborn => 0
  | .dispatching _ => 0
  | _ => 1

/-- How often the method has returned. -/
def results (c : Call E S A R) : ℕ :=
  match c.handler with
  | .returned _ _ => 1
  | .ended _ => 1
  | _ => 0

/-- How often `Call` has returned. -/
def answers (c : Call E S A R) : ℕ :=
  match c.stage with
  | .replied _ => 1
  | _ => 0

theorem countP_enters (h : runs step makeNetwork t = some rn) (hc : rn.calls[k]? = some c) :
    t.countP (Event.enters k) = entries c := by
  refine countP_eq (fun _ => Event.own_of_enters) (fun _ => rfl) ?_ h hc
  intro t rn c e c' hs hgo hown
  cases hgo with
  | stay _ _ hno => exact absurd hown hno
  | @dispatch req hd rt => cases hd <;> first | exact hs.elim | rfl
  | enter => simp [entries, Event.enters]
  | _ => rfl

theorem countP_returns (h : runs step makeNetwork t = some rn) (hc : rn.calls[k]? = some c) :
    t.countP (Event.returns k) = results c := by
  refine countP_eq (fun _ => Event.own_of_returns) (fun _ => rfl) ?_ h hc
  intro t rn c e c' hs hgo hown
  cases hgo with
  | stay _ _ hno => exact absurd hown hno
  | @dispatch req hd rt => cases hd <;> first | exact hs.elim | rfl
  | ret => simp [results, Event.returns]
  | _ => rfl

theorem countP_replies (h : runs step makeNetwork t = some rn) (hc : rn.calls[k]? = some c) :
    t.countP (Event.replies k) = answers c := by
  refine countP_eq (fun _ => Event.own_of_replies) (fun _ => rfl) ?_ h hc
  intro t rn c e c' hs hgo hown
  cases hgo with
  | stay _ _ hno => exact absurd hown hno
  | reply => simp [answers, Event.replies]
  | _ => rfl

/-- A call that returns true has got what its method returned, in its only run, on the server that
its end was connected to; and after that the server had not been replaced. -/
theorem reply_sound {reply : R} (h : runs step makeNetwork t = some rn)
    (hc : rn.calls[k]? = some c) (hr : c.stage = .replied (some reply)) :
    (∃ rt, Confirmed k c.req rt reply t) ∧ t.countP (Event.enters k) = 1 ∧
      t.countP (Event.returns k) = 1 ∧ t.countP (Event.replies k) = 1 := by
  have hs := sound_of_runs h hc
  rw [countP_enters h hc, countP_returns h hc, countP_replies h hc]
  obtain ⟨req, st, hd⟩ := c
  obtain rfl : st = .replied (some reply) := hr
  cases hd with
  | ended => exact ⟨hs, rfl, rfl, rfl⟩
  | _ => exact hs.elim

/-- The labels up to a call whose method runs. -/
def underWay : List (Event ℕ ℕ ℕ ℕ) :=
  [.makeServer [⟨[82], [[86]]⟩], .addServer 0 0, .makeEnd 0, .connect 0 0, .enable 0 true,
    .call ⟨0, [82, dot, 86], 7⟩, .proceed 0 .read, .proceed 0 .dispatch, .enter 0]

/-- Where a run leaves its first call. -/
def firstCall (t : List (Event ℕ ℕ ℕ ℕ)) : Option (Stage ℕ ℕ × Handler ℕ × Option Crash) :=
  (runs step makeNetwork t).bind fun rn =>
    rn.calls[0]?.map fun c => (c.stage, c.handler, rn.crash)

theorem of_firstCall {t : List (Event ℕ ℕ ℕ ℕ)} {st : Stage ℕ ℕ} {hd : Handler ℕ}
    {crash : Option Crash} (h : firstCall t = some (st, hd, crash)) :
    ∃ rn c, runs step makeNetwork t = some rn ∧ rn.calls[0]? = some c ∧ c.stage = st ∧
      c.handler = hd ∧ rn.crash = crash := by
  obtain ⟨rn, hrn, hc⟩ := Option.bind_eq_some_iff.mp h
  obtain ⟨c, hc, heq⟩ := Option.map_eq_some_iff.mp hc
  simp only [Prod.mk.injEq] at heq
  exact ⟨rn, c, hrn, hc, heq⟩

/-- The call of `underWay` returns true. -/
def answered : List (Event ℕ ℕ ℕ ℕ) :=
  underWay ++ [.proceed 0 (.ret 5), .proceed 0 .recv, .proceed 0 .check, .proceed 0 .deliver,
    .proceed 0 .reply]

theorem reply_sound_answered : ∃ rn c, runs step makeNetwork answered = some rn ∧
    rn.calls[0]? = some c ∧ c.stage = .replied (some 5) ∧
    (∃ rt, Confirmed 0 c.req rt 5 answered) ∧ answered.countP (Event.enters 0) = 1 ∧
      answered.countP (Event.returns 0) = 1 ∧ answered.countP (Event.replies 0) = 1 := by
  obtain ⟨rn, c, h, hc, hst, -⟩ := of_firstCall
    (by decide : firstCall answered = some (.replied (some 5), .ended 0, none))
  exact ⟨rn, c, h, hc, hst, reply_sound h hc hst⟩

/-! ## Why a call fails -/

/-- There was no server to talk to. -/
def Unreachable (k : ℕ) (req : ReqMsg E A) : List (Event E S A R) → Prop :=
  Past step makeNetwork fun _ s e => e = .proceed k .read ∧ s.readEndnameInfo req.endname = none

/-- The network was not reliable. -/
def Unreliable (k : ℕ) : List (Event E S A R) → Prop :=
  Past step makeNetwork fun _ s e => e = .proceed k .read ∧ s.reliable = false

/-- The end was found disabled, or the server gone, while the call was under way. -/
def Cut (k : ℕ) (req : ReqMsg E A) : List (Event E S A R) → Prop :=
  Past step makeNetwork fun t₁ s e => (e = .proceed k .poll ∨ e = .proceed k .check) ∧
    ∃ rt, Routed k req rt t₁ ∧ s.isServerDead req.endname rt.servername rt.server = true

/-- What a call that is on its way to fail has met. -/
def Excused (k : ℕ) (t : List (Event E S A R)) (c : Call E S A R) : Prop :=
  match c.stage with
  | .refusing => Unreachable k c.req t
  | .checking _ none => Cut k c.req t
  | .replying none => Unreachable k c.req t ∨ Unreliable k t ∨ Cut k c.req t
  | .replied none => Unreachable k c.req t ∨ Unreliable k t ∨ Cut k c.req t
  | _ => True

theorem Excused.concat (h : Excused k t c) (e : Event E S A R) : Excused k (t ++ [e]) c := by
  obtain ⟨req, st, hd⟩ := c
  rcases st with _ | _ | rt | rt | ⟨rt, _ | r⟩ | ⟨rt, r⟩ | r | ⟨_ | r⟩ | ⟨_ | r⟩ <;>
    first
    | trivial
    | exact Past.concat h e
    | exact h.imp (Past.concat · e) (Or.imp (Past.concat · e) (Past.concat · e))

theorem Routed.unreliable {req : ReqMsg E A} {rt : Route S} (h : Routed k req rt t)
    (hr : rt.reliable = false) : Unreliable k t := by
  refine Past.mono h fun _ s e he => ⟨he.1, ?_⟩
  have hrt := he.2
  unfold readEndnameInfo at hrt
  split_ifs at hrt
  split at hrt
  · cases hrt
  · split at hrt
    · cases hrt
    · obtain rfl := Option.some.inj hrt
      exact hr

theorem Sound.routed {req : ReqMsg E A} {rt : Route S} {hd : Handler R}
    (h : Sound k t ⟨req, .waiting rt, hd⟩) : Routed k req rt t := by
  cases hd with
  | dispatching => exact h.2
  | running => exact Past.join (Past.mono h.2 fun _ _ _ h₁ => h₁.2.2)
  | returned => exact h.2.routed
  | _ => exact h.elim

theorem Excused.goes {e : Event E S A R} {c' : Call E S A R}
    (hrun : runs step makeNetwork t = some rn) (hs : Sound k t c) (h : Excused k t c)
    (hgo : c.Goes rn k e c') : Excused k (t ++ [e]) c' := by
  cases hgo with
  | stay => exact h.concat e
  | enter => exact h.concat (.enter k)
  | ret => exact h.concat (.proceed k (.ret _))
  | refuse hrt => exact past_concat hrun ⟨rfl, hrt⟩
  | timeout => exact .inl (Past.concat h _)
  | @drop req hd rt hr =>
    cases hd <;> first | exact hs.elim | exact .inr (.inl (Past.concat (hs.unreliable hr) _))
  | dead hd => exact past_concat hrun ⟨.inl rfl, _, hs.routed, hd⟩
  | @fail req rt reply hd hdead =>
    cases hd <;> first
      | exact hs.elim
      | exact .inr (.inr (past_concat hrun ⟨.inr rfl, rt, Handled.routed hs, hdead⟩))
  | giveUp => exact .inr (.inr (Past.concat h _))
  | @lose req rt reply hd hr =>
    cases hd <;> first
      | exact hs.elim
      | exact .inr (.inl (Past.concat ((Confirmed.routed hs).unreliable hr) _))
  | @reply req rep hd =>
    rcases rep with _ | reply
    · exact h.concat _
    · trivial
  | _ => trivial

/-- A call that returns false found no server, an unreliable network, or its connection cut. -/
theorem failure_cause (h : runs step makeNetwork t = some rn) (hc : rn.calls[k]? = some c)
    (hr : c.stage = .replied none) : Unreachable k c.req t ∨ Unreliable k t ∨ Cut k c.req t := by
  have hex : Excused k t c :=
    call_induction (P := Excused k) (fun _ _ _ _ _ => trivial)
      (fun _ _ _ _ _ hrun hc he hgo => he.goes hrun (sound_of_runs hrun hc) hgo) h hc
  unfold Excused at hex
  rw [hr] at hex
  exact hex

/-- The end of the call of `underWay` is disabled before its method returns. -/
def abandoned : List (Event ℕ ℕ ℕ ℕ) :=
  underWay ++ [.enable 0 false, .proceed 0 .poll, .proceed 0 (.ret 5), .proceed 0 .check,
    .proceed 0 .reply]

theorem failure_cause_abandoned : ∃ rn c, runs step makeNetwork abandoned = some rn ∧
    rn.calls[0]? = some c ∧ c.stage = .replied none ∧
    (Unreachable 0 c.req abandoned ∨ Unreliable 0 abandoned ∨ Cut 0 c.req abandoned) := by
  obtain ⟨rn, c, h, hc, hst, -⟩ := of_firstCall
    (by decide : firstCall abandoned = some (.replied none, .returned 0 5, none))
  exact ⟨rn, c, h, hc, hst, failure_cause h hc hst⟩

end Network

end DistSystem.LabRPC
