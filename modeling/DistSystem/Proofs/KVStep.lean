import DistSystem.KV.Service

/-!
# What an action of the key/value service does

A step of a handler goroutine and of its server (`Turn`), and of the whole service (`Step`). From
these follow where requests, handlers and answers come from (`Wired`): each is of a call that was
made with its arguments, and a call returns with what a handler answered.
-/

namespace DistSystem.KV

variable {n : ℕ} {s s' : Service n} {a : Action n}

/-- The answer a handler sends when it returns. -/
def Handler.response (hd : Handler n) : List Response :=
  match hd.phase with
  | .answered reply => [⟨hd.call, hd.attempt, reply⟩]
  | _ => []

/-- What an action of the handler `h` makes of it and of its server. -/
inductive Turn (x : Node) (hd : Handler n) (h : ℕ) : Action n → Node → Handler n → Prop
  | start (i : ℕ) (hp : hd.phase = .start) :
    Turn x hd h (.start h (some i)) x { hd with index := i, phase := .lookup }
  | refuse {a : Action n} (hp : hd.phase = .start ∨ hd.phase = .wait) :
    Turn x hd h a x { hd with phase := .answered hd.args.refused }
  | lookup (hp : hd.phase = .lookup) :
    Turn x hd h (.lookup h) { x with kv := x.kv.lookup hd.index } { hd with phase := .wait }
  | mismatch {op : Op} {kv : RaftKV} (hp : hd.phase = .wait)
    (hr : x.kv.receive hd.index = some (op, kv)) (hne : op ≠ hd.args.entry) :
    Turn x hd h (.receive h) { x with kv := kv } { hd with phase := .answered hd.args.refused }
  | get {args : GetArgs} {kv : RaftKV} (hp : hd.phase = .wait) (ha : hd.args = .get args)
    (hr : x.kv.receive hd.index = some (hd.args.entry, kv)) :
    Turn x hd h (.receive h) { x with kv := kv } { hd with phase := .read }
  | putAppend {args : PutAppendArgs} {kv : RaftKV} (hp : hd.phase = .wait)
    (ha : hd.args = .putAppend args) (hr : x.kv.receive hd.index = some (hd.args.entry, kv)) :
    Turn x hd h (.receive h) { x with kv := kv }
      { hd with phase := .answered (.putAppend ⟨false, some .ok⟩) }
  | read {args : GetArgs} (hp : hd.phase = .read) (ha : hd.args = .get args) :
    Turn x hd h (.read h) { x with kv := (x.kv.get args).2 }
      { hd with phase := .answered (.get (x.kv.get args).1) }

/-- What an action makes of the service. -/
inductive Step (s : Service n) : Action n → Service n → Prop
  | lose {a : Action n} {rqs : List (Request n)} {rss : List Response}
    (hrq : rqs.Sublist s.requests) (hrs : rss.Sublist s.responses) :
    Step s a { s with requests := rqs, responses := rss }
  | invoke (c : ℕ) (x : Invocation) :
    Step s (.invoke c x)
      { s with
        clerks := Function.update s.clerks c (s.clerks c).next
        calls := s.calls ++ [⟨c, (s.clerks c).args x, 0, .calling⟩] }
  | call {j : ℕ} {call : Call} (p : Fin n) (hj : s.calls[j]? = some call)
    (hp : call.phase = .calling) :
    Step s (.call j)
      { s.setCall j { call with phase := .waiting } with
        requests := s.requests ++ [⟨j, call.attempt, call.args, p⟩] }
  | fail {j : ℕ} {call : Call} (hj : s.calls[j]? = some call) (hp : call.phase = .waiting) :
    Step s (.fail j) (s.setCall j (call.result none))
  | dispatch {k : ℕ} {rq : Request n} (hk : s.requests[k]? = some rq) :
    Step s (.dispatch k)
      { s with
        requests := s.requests.eraseIdx k
        handlers := s.handlers ++
          [⟨rq.call, rq.attempt, rq.args, rq.server, (s.nodes rq.server).incarnation, 0, .start⟩] }
  | reply {k : ℕ} {rs : Response} {call : Call} (hk : s.responses[k]? = some rs)
    (hj : s.calls[rs.call]? = some call) (hp : call.phase = .waiting)
    (ha : call.attempt = rs.attempt) :
    Step s (.reply k) ({ s with responses := s.responses.eraseIdx k }.setCall rs.call
      (call.result (some rs.reply)))
  | turn {a : Action n} {h : ℕ} {hd hd' : Handler n} {x' : Node} (hh : s.handlers[h]? = some hd)
    (hl : s.Live hd) (ht : Turn (s.nodes hd.server) hd h a x' hd') :
    Step s a { (s.setNode hd.server x').setHandler h hd' with
      responses := s.responses ++ hd'.response }
  | apply {p : Fin n} {applyMsg : ApplyMsg Op} (hr : (s.nodes p).status = .running) :
    Step s (.apply p applyMsg) (s.setNode p ((s.nodes p).getApply applyMsg))
  | crash (p : Fin n) : Step s (.crash p) (s.setNode p { s.nodes p with status := .crashed })
  | restart {p : Fin n} (hr : (s.nodes p).status ≠ .running) :
    Step s (.restart p)
      (s.setNode p ⟨.startKVServer, .running, (s.nodes p).incarnation + 1, []⟩)

namespace Service

theorem handlerAt_eq_some {h : ℕ} {phase : Phase} {hd : Handler n}
    (hh : s.handlerAt h phase = some hd) :
    s.handlers[h]? = some hd ∧ s.Live hd ∧ hd.phase = phase := by
  unfold handlerAt at hh
  split at hh
  · split_ifs at hh with hl
    obtain rfl := Option.some.inj hh
    exact ⟨by assumption, hl⟩
  · cases hh

theorem reader_eq_some {h : ℕ} {hd : Handler n} {args : GetArgs}
    (hh : s.reader h = some (hd, args)) :
    s.handlers[h]? = some hd ∧ s.Live hd ∧ hd.phase = .read ∧ hd.args = .get args := by
  unfold reader at hh
  split at hh
  · cases hh
  · rename_i hd' hat
    split at hh
    · rename_i args' ha
      cases hh
      obtain ⟨h1, h2, h3⟩ := handlerAt_eq_some hat
      exact ⟨h1, h2, h3, ha⟩
    · cases hh

theorem callAt_eq_some {j : ℕ} {phase : CallPhase} {call : Call}
    (hj : s.callAt j phase = some call) : s.calls[j]? = some call ∧ call.phase = phase := by
  unfold callAt at hj
  split at hj
  · split_ifs at hj with hp
    obtain rfl := Option.some.inj hj
    exact ⟨by assumption, hp⟩
  · cases hj

theorem step_refl (s : Service n) (a : Action n) : Step s a s :=
  .lose (List.Sublist.refl _) (List.Sublist.refl _)

@[simp]
theorem setNode_self (s : Service n) (p : Fin n) : s.setNode p (s.nodes p) = s := by
  unfold setNode
  rw [Function.update_eq_self]

theorem step_turn {h : ℕ} {hd hd' : Handler n} {x' : Node} (hh : s.handlers[h]? = some hd)
    (hl : s.Live hd) (ht : Turn (s.nodes hd.server) hd h a x' hd')
    (hs : s' = { (s.setNode hd.server x').setHandler h hd' with
      responses := s.responses ++ hd'.response }) : Step s a s' :=
  hs ▸ .turn hh hl ht

theorem step_refuse {h : ℕ} {hd : Handler n} (hh : s.handlers[h]? = some hd) (hl : s.Live hd)
    (hp : hd.phase = .start ∨ hd.phase = .wait) (a : Action n) :
    Step s a (s.answer h hd hd.args.refused) := by
  refine step_turn hh hl (.refuse hp) ?_
  rw [setNode_self]
  rfl

theorem step_receive {h : ℕ} {hd : Handler n} {op : Op} {kv : RaftKV}
    (hh : s.handlers[h]? = some hd) (hl : s.Live hd) (hp : hd.phase = .wait)
    (hr : (s.nodes hd.server).kv.receive hd.index = some (op, kv)) :
    Step s (.receive h)
      ((s.setNode hd.server { s.nodes hd.server with kv := kv }).received h hd op) := by
  unfold received
  split_ifs with he
  · subst he
    split
    · rename_i args ha
      exact step_turn hh hl (.get hp ha hr) (by simp [setHandler, Handler.response, setNode])
    · rename_i args ha
      exact step_turn hh hl (.putAppend hp ha hr) rfl
  · exact step_turn hh hl (.mismatch hp hr he) rfl

theorem exec_step (s : Service n) (a : Action n) : Step s a (s.exec a) := by
  cases a with
  | invoke c x => exact .invoke c x
  | call j =>
    simp only [exec]
    split
    · exact step_refl s _
    · obtain ⟨hj, hp⟩ := callAt_eq_some (by assumption)
      split
      · exact step_refl s _
      · exact .call _ hj hp
  | fail j =>
    simp only [exec]
    split
    · exact step_refl s _
    · obtain ⟨hj, hp⟩ := callAt_eq_some (by assumption)
      exact .fail hj hp
  | dispatch k =>
    simp only [exec]
    split
    · exact step_refl s _
    · split_ifs
      · exact .dispatch (by assumption)
      · exact step_refl s _
  | loseRequest k => exact .lose (List.eraseIdx_sublist _ _) (List.Sublist.refl _)
  | start h index =>
    simp only [exec]
    split
    · exact step_refl s _
    · obtain ⟨hh, hl, hp⟩ := handlerAt_eq_some (by assumption)
      split
      · exact step_turn hh hl (.start _ hp) (by simp [setHandler, Handler.response])
      · exact step_refuse hh hl (.inl hp) _
  | lookup h =>
    simp only [exec]
    split
    · exact step_refl s _
    · obtain ⟨hh, hl, hp⟩ := handlerAt_eq_some (by assumption)
      exact step_turn hh hl (.lookup hp) (by simp [setHandler, Handler.response, setNode])
  | receive h =>
    simp only [exec]
    split
    · exact step_refl s _
    · obtain ⟨hh, hl, hp⟩ := handlerAt_eq_some (by assumption)
      split
      · exact step_refl s _
      · exact step_receive hh hl hp (by assumption)
  | timeout h =>
    simp only [exec]
    split
    · exact step_refl s _
    · obtain ⟨hh, hl, hp⟩ := handlerAt_eq_some (by assumption)
      exact step_refuse hh hl (.inr hp) _
  | read h =>
    simp only [exec]
    split
    · exact step_refl s _
    · obtain ⟨hh, hl, hp, ha⟩ := reader_eq_some (by assumption)
      exact step_turn hh hl (.read hp ha) rfl
  | reply k =>
    simp only [exec]
    split
    · exact step_refl s _
    · have hlost : Step s (.reply k) { s with responses := s.responses.eraseIdx k } :=
        .lose (List.Sublist.refl _) (List.eraseIdx_sublist _ _)
      split
      · exact hlost
      · obtain ⟨hj, hp⟩ := callAt_eq_some (by assumption)
        split_ifs with ha
        · exact .reply (by assumption) hj hp ha
        · exact hlost
  | loseResponse k => exact .lose (List.Sublist.refl _) (List.eraseIdx_sublist _ _)
  | apply p applyMsg =>
    simp only [exec]
    split_ifs with hr
    · exact .apply hr
    · exact step_refl s _
  | crash p => exact .crash p
  | restart p =>
    simp only [exec]
    split_ifs with hr
    · exact step_refl s _
    · exact .restart hr
  | idle => exact step_refl s _

/-- The Clerk and the arguments of every call so far. -/
def issued (s : Service n) : List (ℕ × Args) := s.calls.map fun call => (call.clerk, call.args)

theorem issued_setCall {j : ℕ} {call call' : Call} (hj : s.calls[j]? = some call)
    (hc : call'.clerk = call.clerk) (ha : call'.args = call.args) :
    (s.setCall j call').issued = s.issued := by
  unfold issued setCall
  rw [List.map_set, hc, ha]
  refine List.ext_getElem? fun i => ?_
  by_cases hi : j = i
  · subst hi
    have hlt := (List.getElem?_eq_some_iff.1 hj).1
    rw [List.getElem?_set_self (by simpa using hlt), List.getElem?_map, hj]
    rfl
  · rw [List.getElem?_set_ne hi]

end Service

theorem Call.result_clerk (call : Call) (reply : Option Reply) :
    (call.result reply).clerk = call.clerk := by
  unfold Call.result
  split
  · split_ifs <;> rfl
  · rfl

theorem Call.result_args (call : Call) (reply : Option Reply) :
    (call.result reply).args = call.args := by
  unfold Call.result
  split
  · split_ifs <;> rfl
  · rfl

theorem Call.result_returned {call : Call} {reply : Option Reply} {r : Reply}
    (h : (call.result reply).phase = .returned r) : reply = some r ∧ r.wrongLeader = false := by
  unfold Call.result at h
  split at h
  · split_ifs at h with hw
    cases h
    exact ⟨rfl, by simpa using hw⟩
  · cases h

theorem Turn.call {x x' : Node} {hd hd' : Handler n} {h : ℕ} (ht : Turn x hd h a x' hd') :
    hd'.call = hd.call ∧ hd'.args = hd.args ∧ hd'.server = hd.server ∧
      hd'.incarnation = hd.incarnation := by
  cases ht <;> exact ⟨rfl, rfl, rfl, rfl⟩

theorem Turn.not_answered {x x' : Node} {hd hd' : Handler n} {h : ℕ} (ht : Turn x hd h a x' hd')
    (reply : Reply) : hd.phase ≠ .answered reply := by
  intro hr
  cases ht with
  | refuse hp => rcases hp with hp | hp <;> simp [hp] at hr
  | start _ hp | lookup hp | mismatch hp | get hp | putAppend hp | read hp => simp [hp] at hr

theorem Handler.mem_response {hd : Handler n} {rs : Response} (h : rs ∈ hd.response) :
    hd.call = rs.call ∧ hd.phase = .answered rs.reply := by
  unfold Handler.response at h
  split at h
  · rename_i reply hp
    obtain rfl := List.mem_singleton.1 h
    exact ⟨rfl, hp⟩
  · simp at h

namespace Step

/-- Only the beginning of a call changes what was issued. -/
theorem issued (h : Step s a s') :
    (s'.issued = s.issued ∧ s'.clerks = s.clerks) ∨
      ∃ c x, a = .invoke c x ∧ s'.issued = s.issued ++ [(c, (s.clerks c).args x)] ∧
        s'.clerks = Function.update s.clerks c (s.clerks c).next := by
  cases h with
  | invoke c x => exact .inr ⟨c, x, rfl, by simp [Service.issued], rfl⟩
  | call p hj hp => exact .inl ⟨Service.issued_setCall hj rfl rfl, rfl⟩
  | fail hj hp =>
    exact .inl ⟨Service.issued_setCall hj (Call.result_clerk _ _) (Call.result_args _ _), rfl⟩
  | reply hk hj hp ha =>
    refine .inl ⟨?_, rfl⟩
    exact Service.issued_setCall (s := { s with responses := _ }) hj (Call.result_clerk _ _)
      (Call.result_args _ _)
  | lose | dispatch | turn | apply | crash | restart => exact .inl ⟨rfl, rfl⟩

theorem issued_mono (h : Step s a s') {j : ℕ} {y : ℕ × Args} (hy : s.issued[j]? = some y) :
    s'.issued[j]? = some y := by
  rcases h.issued with ⟨hi, -⟩ | ⟨c, x, -, hi, -⟩
  · rwa [hi]
  · rw [hi, List.getElem?_append_left (List.getElem?_eq_some_iff.1 hy).1]
    exact hy

/-- Handlers stay what they are once they have answered. -/
theorem answered_mem (h : Step s a s') {hd : Handler n} (hhd : hd ∈ s.handlers) {reply : Reply}
    (hr : hd.phase = .answered reply) : hd ∈ s'.handlers := by
  cases h with
  | dispatch => exact List.mem_append_left _ hhd
  | turn hh hl ht =>
    rename_i k hd₀ hd' x'
    obtain ⟨i, hi⟩ := List.mem_iff_getElem?.1 hhd
    refine List.mem_iff_getElem?.2 ⟨i, ?_⟩
    have hne : k ≠ i := by
      rintro rfl
      rw [hh] at hi
      cases hi
      exact ht.not_answered reply hr
    exact (List.getElem?_set_ne hne).trans hi
  | lose | invoke | call | fail | reply | apply | crash | restart => exact hhd

/-- Where the handlers after a step come from. -/
theorem mem_handlers (h : Step s a s') {hd' : Handler n} (hhd : hd' ∈ s'.handlers) :
    hd' ∈ s.handlers ∨
      (∃ rq ∈ s.requests, hd' = ⟨rq.call, rq.attempt, rq.args, rq.server,
        (s.nodes rq.server).incarnation, 0, .start⟩ ∧ s'.nodes = s.nodes) ∨
      ∃ h hd, s.handlers[h]? = some hd ∧ s.Live hd ∧
        Turn (s.nodes hd.server) hd h a (s'.nodes hd.server) hd' := by
  cases h with
  | dispatch hk =>
    rcases List.mem_append.1 hhd with hhd | hhd
    · exact .inl hhd
    · exact .inr (.inl ⟨_, List.mem_of_getElem? hk, List.mem_singleton.1 hhd, rfl⟩)
  | turn hh hl ht =>
    rcases List.mem_or_eq_of_mem_set hhd with hhd | rfl
    · exact .inl hhd
    · refine .inr (.inr ⟨_, _, hh, hl, ?_⟩)
      simpa [Service.setHandler, Service.setNode] using ht
  | lose | invoke | call | fail | reply | apply | crash | restart => exact .inl hhd

end Step

/-- Where what is under way comes from. -/
structure Wired (s : Service n) : Prop where
  /-- A call has the id of its Clerk and a request number the Clerk has given out. -/
  numbered : ∀ y ∈ s.issued,
    y.2.entry.id = (s.clerks y.1).id ∧ y.2.entry.reqId < (s.clerks y.1).reqId
  ordered : s.issued.Pairwise fun y z => y.1 = z.1 → y.2.entry.reqId < z.2.entry.reqId
  requests : ∀ rq ∈ s.requests, ∃ c, s.issued[rq.call]? = some (c, rq.args)
  handlers : ∀ hd ∈ s.handlers, ∃ c, s.issued[hd.call]? = some (c, hd.args)
  responses : ∀ rs ∈ s.responses, ∃ hd ∈ s.handlers, hd.call = rs.call ∧
    hd.phase = .answered rs.reply
  returned : ∀ j call reply, s.calls[j]? = some call → call.phase = .returned reply →
    reply.wrongLeader = false ∧ ∃ hd ∈ s.handlers, hd.call = j ∧ hd.phase = .answered reply

namespace Wired

theorem clerk_args (ck : Clerk n) (x : Invocation) :
    (ck.args x).entry.id = ck.id ∧ (ck.args x).entry.reqId = ck.reqId := by
  cases x <;> exact ⟨rfl, rfl⟩

theorem numbered_step (hw : Wired s) (h : Step s a s') : ∀ y ∈ s'.issued,
    y.2.entry.id = (s'.clerks y.1).id ∧ y.2.entry.reqId < (s'.clerks y.1).reqId := by
  rcases h.issued with ⟨hi, hc⟩ | ⟨c, x, -, hi, hc⟩
  · rw [hi, hc]
    exact hw.numbered
  · intro y hy
    rw [hi, List.mem_append, List.mem_singleton] at hy
    rw [hc]
    rcases hy with hy | rfl
    · obtain ⟨hid, hreq⟩ := hw.numbered y hy
      by_cases hyc : y.1 = c
      · subst hyc
        simp only [Function.update_self, Clerk.next]
        exact ⟨hid, by omega⟩
      · rw [Function.update_of_ne hyc]
        exact ⟨hid, hreq⟩
    · obtain ⟨hid, hreq⟩ := clerk_args (s.clerks c) x
      simp only [Function.update_self, Clerk.next]
      exact ⟨hid, by omega⟩

theorem ordered_step (hw : Wired s) (h : Step s a s') :
    s'.issued.Pairwise fun y z => y.1 = z.1 → y.2.entry.reqId < z.2.entry.reqId := by
  rcases h.issued with ⟨hi, -⟩ | ⟨c, x, -, hi, -⟩
  · rw [hi]
    exact hw.ordered
  · rw [hi, List.pairwise_append]
    refine ⟨hw.ordered, List.pairwise_singleton _ _, fun y hy z hz hyz => ?_⟩
    obtain rfl := List.mem_singleton.1 hz
    have hlt := (hw.numbered y hy).2
    rw [(clerk_args (s.clerks c) x).2]
    rwa [hyz] at hlt

theorem requests_step (hw : Wired s) (h : Step s a s') :
    ∀ rq ∈ s'.requests, ∃ c, s'.issued[rq.call]? = some (c, rq.args) := by
  have hold : ∀ rq ∈ s.requests, ∃ c, s'.issued[rq.call]? = some (c, rq.args) := by
    intro rq hrq
    obtain ⟨c, hc⟩ := hw.requests rq hrq
    exact ⟨c, h.issued_mono hc⟩
  intro rq hrq
  cases h with
  | lose hrqs => exact hold rq (hrqs.subset hrq)
  | dispatch => exact hold rq (List.mem_of_mem_eraseIdx hrq)
  | call p hj hp =>
    rename_i j call
    rcases List.mem_append.1 hrq with hrq | hrq
    · exact hold rq hrq
    · obtain rfl := List.mem_singleton.1 hrq
      have hissued : s.issued[j]? = some (call.clerk, call.args) := by simp [Service.issued, hj]
      exact ⟨call.clerk, (Step.call p hj hp).issued_mono hissued⟩
  | invoke | fail | reply | turn | apply | crash | restart => exact hold rq hrq

theorem handlers_step (hw : Wired s) (h : Step s a s') :
    ∀ hd ∈ s'.handlers, ∃ c, s'.issued[hd.call]? = some (c, hd.args) := by
  intro hd' hhd
  rcases h.mem_handlers hhd with hhd | ⟨rq, hrq, rfl, -⟩ | ⟨k, hd, hh, -, ht⟩
  · obtain ⟨c, hc⟩ := hw.handlers hd' hhd
    exact ⟨c, h.issued_mono hc⟩
  · obtain ⟨c, hc⟩ := hw.requests rq hrq
    exact ⟨c, h.issued_mono hc⟩
  · obtain ⟨c, hc⟩ := hw.handlers hd (List.mem_of_getElem? hh)
    obtain ⟨hcall, hargs, -⟩ := ht.call
    exact ⟨c, by rw [hcall, hargs]; exact h.issued_mono hc⟩

theorem responses_step (hw : Wired s) (h : Step s a s') : ∀ rs ∈ s'.responses,
    ∃ hd ∈ s'.handlers, hd.call = rs.call ∧ hd.phase = .answered rs.reply := by
  have hold : ∀ rs ∈ s.responses,
      ∃ hd ∈ s'.handlers, hd.call = rs.call ∧ hd.phase = .answered rs.reply := by
    intro rs hrs
    obtain ⟨hd, hhd, hc, hp⟩ := hw.responses rs hrs
    exact ⟨hd, h.answered_mem hhd hp, hc, hp⟩
  intro rs hrs
  cases h with
  | lose _ hrss => exact hold rs (hrss.subset hrs)
  | reply => exact hold rs (List.mem_of_mem_eraseIdx hrs)
  | turn hh hl ht =>
    rcases List.mem_append.1 hrs with hrs | hrs
    · exact hold rs hrs
    · obtain ⟨hc, hp⟩ := Handler.mem_response hrs
      exact ⟨_, List.mem_set (List.getElem?_eq_some_iff.1 hh).1 _, hc, hp⟩
  | invoke | call | fail | dispatch | apply | crash | restart => exact hold rs hrs

theorem returned_step (hw : Wired s) (h : Step s a s') : ∀ j call reply,
    s'.calls[j]? = some call → call.phase = .returned reply →
    reply.wrongLeader = false ∧ ∃ hd ∈ s'.handlers, hd.call = j ∧ hd.phase = .answered reply := by
  have hold : ∀ j call reply, s.calls[j]? = some call → call.phase = .returned reply →
      reply.wrongLeader = false ∧
        ∃ hd ∈ s'.handlers, hd.call = j ∧ hd.phase = .answered reply := by
    intro j call reply hj hp
    obtain ⟨hlead, hd, hhd, hc, hr⟩ := hw.returned j call reply hj hp
    exact ⟨hlead, hd, h.answered_mem hhd hr, hc, hr⟩
  -- a call that is set to something not returned
  have hset : ∀ {i : ℕ} {call' : Call}, (∀ reply, call'.phase ≠ .returned reply) →
      ∀ (j : ℕ) (call : Call) (reply : Reply), (s.calls.set i call')[j]? = some call →
        call.phase = .returned reply → s.calls[j]? = some call := by
    intro i call' hne j call reply hj hp
    by_cases hij : i = j
    · subst hij
      obtain ⟨hlt, heq⟩ := List.getElem?_eq_some_iff.1 hj
      rw [List.getElem_set_self] at heq
      exact absurd (heq ▸ hp) (hne reply)
    · rwa [List.getElem?_set_ne hij] at hj
  intro j call reply hj hp
  cases h with
  | invoke c x =>
    by_cases hlt : j < s.calls.length
    · rw [List.getElem?_append_left hlt] at hj
      exact hold j call reply hj hp
    · rw [List.getElem?_append_right (by omega)] at hj
      obtain rfl := List.mem_singleton.1 (List.mem_of_getElem? hj)
      cases hp
  | call p hj' => exact hold j call reply (hset (by simp) j call reply hj hp) hp
  | fail hj' =>
    refine hold j call reply (hset (fun r hr => ?_) j call reply hj hp) hp
    cases (Call.result_returned hr).1
  | reply hk hj' hp' ha =>
    rename_i k rs call₀
    by_cases hij : rs.call = j
    · subst hij
      obtain ⟨hlt, heq⟩ := List.getElem?_eq_some_iff.1 hj
      simp only [Service.setCall, List.getElem_set_self] at heq
      obtain ⟨hr, hlead⟩ := Call.result_returned (heq ▸ hp)
      obtain ⟨hd, hhd, hc, hr'⟩ := hw.responses rs (List.mem_of_getElem? hk)
      rw [Option.some.inj hr] at hr'
      exact ⟨hlead, hd, hhd, hc, hr'⟩
    · simp only [Service.setCall, List.getElem?_set_ne hij] at hj
      exact hold j call reply hj hp
  | lose | dispatch | turn | apply | crash | restart => exact hold j call reply hj hp

theorem step (hw : Wired s) (h : Step s a s') : Wired s' where
  numbered := hw.numbered_step h
  ordered := hw.ordered_step h
  requests := hw.requests_step h
  handlers := hw.handlers_step h
  responses := hw.responses_step h
  returned := hw.returned_step h

end Wired

namespace Schedule

variable (κ : Schedule n)

theorem step (t : ℕ) : Step (κ.run t) (κ.act t) (κ.run (t + 1)) := (κ.run t).exec_step (κ.act t)

theorem wired : ∀ t, Wired (κ.run t)
  | 0 => by
    constructor <;> simp [run, Service.issued]
  | t + 1 => (wired t).step (κ.step t)

theorem clerk_id (c : ℕ) : ∀ t, ((κ.run t).clerks c).id = κ.id c
  | 0 => rfl
  | t + 1 => by
    rw [← clerk_id c t]
    rcases (κ.step t).issued with ⟨-, hc⟩ | ⟨c', x, -, -, hc⟩
    · rw [hc]
    · rw [hc]
      by_cases h : c = c'
      · subst h
        simp [Clerk.next]
      · rw [Function.update_of_ne h]

variable {κ}

theorem issued_mono {t u : ℕ} (htu : t ≤ u) {j : ℕ} {y : ℕ × Args}
    (hy : (κ.run t).issued[j]? = some y) : (κ.run u).issued[j]? = some y := by
  induction u, htu using Nat.le_induction with
  | base => exact hy
  | succ u _ ih => exact (κ.step u).issued_mono ih

section Ids

variable (hid : Function.Injective κ.id) {t i j : ℕ} {y z : ℕ × Args}
  (hy : (κ.run t).issued[i]? = some y) (hz : (κ.run t).issued[j]? = some z)
include hid hy hz

theorem issued_clerk (h : y.2.entry.id = z.2.entry.id) : y.1 = z.1 := by
  have hw := κ.wired t
  apply hid
  rw [← κ.clerk_id _ t, ← κ.clerk_id _ t, ← (hw.numbered y (List.mem_of_getElem? hy)).1,
    ← (hw.numbered z (List.mem_of_getElem? hz)).1]
  exact h

/-- With distinct ids, the calls with one id are numbered in the order they begin. -/
theorem issued_lt (h : y.2.entry.id = z.2.entry.id) (hij : i < j) :
    y.2.entry.reqId < z.2.entry.reqId := by
  have hclerk := issued_clerk hid hy hz h
  obtain ⟨hi, rfl⟩ := List.getElem?_eq_some_iff.1 hy
  obtain ⟨hj, rfl⟩ := List.getElem?_eq_some_iff.1 hz
  exact List.pairwise_iff_getElem.1 (κ.wired t).ordered i j hi hj hij hclerk

/-- With distinct ids, no two calls give the same operation to the log. -/
theorem issued_inj (h : y.2.entry.id = z.2.entry.id) (hr : y.2.entry.reqId = z.2.entry.reqId) :
    i = j := by
  rcases Nat.lt_trichotomy i j with hij | hij | hij
  · have := issued_lt hid hy hz h hij
    omega
  · exact hij
  · have := issued_lt hid hz hy h.symm hij
    omega

end Ids

end Schedule

end DistSystem.KV
