import DistSystem.Lib.Linear
import DistSystem.Proofs.KVOnce
import DistSystem.Proofs.KVRaft
import Mathlib.Data.Finset.Lattice.Fold
import Mathlib.Data.Fintype.Basic
import Mathlib.Order.Lattice.Nat

/-!
# The service is linearizable

To their callers the servers together are one store, if the Clerks make one call after another and
no `Get` lowers `ack`. An update takes effect where the log has it first, and a `Get` between two
entries of the log: after what its server had applied when it read.
-/

namespace DistSystem.KV

open Linear

variable {n : ℕ} {log : ℕ → Op}

/-! ## The store as callers know it -/

/-- What a store answers. -/
def Args.reply (db : String → String) : Args → Reply
  | .get args => .get ⟨false, some .ok, db args.key⟩
  | .putAppend _ => .putAppend ⟨false, some .ok⟩

/-- One store, for one caller after another. -/
def store : Object (String → String) Args Reply where
  init := fun _ => ""
  step := fun db args => (args.entry.run db, args.reply db)

def Call.reply (call : Call) : Option Reply :=
  match call.phase with
  | .returned reply => some reply
  | _ => none

theorem Call.reply_eq_some {call : Call} {reply : Reply} :
    call.reply = some reply ↔ call.phase = .returned reply := by
  unfold Call.reply
  split <;> simp_all

namespace Schedule

variable (κ : Schedule n)

/-- The `j`-th call has returned `reply` by time `t`. -/
def Returns (t j : ℕ) (reply : Reply) : Prop :=
  ∃ call, (κ.run t).calls[j]? = some call ∧ call.phase = .returned reply

/-- The calls on the Clerks up to time `t`, as the callers see them. -/
def history (t : ℕ) : Linear.History ℕ Args Reply where
  request := fun j => (κ.run t).calls[j]?.map Call.args
  reply := fun j => (κ.run t).calls[j]?.bind Call.reply
  before := fun i j => ∃ u ≤ t, (∃ reply, κ.Returns u i reply) ∧ (κ.run u).calls.length ≤ j

end Schedule

/-! ## Replies -/

/-- A handler that answers anything but wrong leader answers from the store of its server, which has
applied its operation. -/
theorem Served.reply_turn {s : Service n} {a : Action n} (hs : Served s) {h : ℕ}
    {hd hd' : Handler n} {x' : Node} (hh : s.handlers[h]? = some hd) (hl : s.Live hd)
    (ht : Turn (s.nodes hd.server) hd h a x' hd') {reply : Reply}
    (hr : hd'.phase = .answered reply) (hlead : reply.wrongLeader = false) :
    (s.nodes hd.server).HasApplied hd'.index hd'.args.entry ∧
      reply = hd'.args.reply (s.nodes hd.server).kv.db := by
  refine ⟨hs.answered_turn hh hl ht hr hlead, ?_⟩
  have hrefused : hd.args.refused.wrongLeader = true := by
    cases hd.args <;> rfl
  cases ht with
  | refuse | mismatch =>
    cases hr
    rw [hrefused] at hlead
    cases hlead
  | putAppend _ ha =>
    cases hr
    rw [ha]
    rfl
  | read _ ha =>
    cases hr
    rw [ha]
    rfl
  | start | lookup | get => cases hr

/-- A call that has returned stays as it is. -/
theorem Step.returned_call {s s' : Service n} {a : Action n} (h : Step s a s') {j : ℕ} {call : Call}
    {reply : Reply} (hj : s.calls[j]? = some call) (hp : call.phase = .returned reply) :
    s'.calls[j]? = some call := by
  have hset : ∀ {i : ℕ} {c c' : Call}, s.calls[i]? = some c → c.phase ≠ .returned reply →
      (s.calls.set i c')[j]? = some call := by
    intro i c c' hi hne
    rw [List.getElem?_set_ne, hj]
    rintro rfl
    rw [hj] at hi
    obtain rfl := Option.some.inj hi
    exact hne hp
  cases h with
  | invoke =>
    rw [List.getElem?_append_left (List.getElem?_eq_some_iff.mp hj).1]
    exact hj
  | call p hi hph => exact hset hi (by simp [hph])
  | fail hi hph => exact hset hi (by simp [hph])
  | reply hk hi hph ha => exact hset hi (by simp [hph])
  | lose | dispatch | turn | apply | crash | restart => exact hj

namespace Schedule

variable {κ : Schedule n}

theorem returned_call {t u j : ℕ} (htu : t ≤ u) {call : Call} {reply : Reply}
    (hj : (κ.run t).calls[j]? = some call) (hp : call.phase = .returned reply) :
    (κ.run u).calls[j]? = some call := by
  induction u, htu using Nat.le_induction with
  | base => exact hj
  | succ u _ ih => exact (κ.step u).returned_call ih hp

/-- Where the reply of a handler comes from. -/
theorem reply_of_answered {hd : Handler n} {reply : Reply}
    (hr : hd.phase = .answered reply) (hlead : reply.wrongLeader = false) :
    ∀ {t : ℕ}, hd ∈ (κ.run t).handlers →
      ∃ u ≤ t, (κ.node u hd.server).HasApplied hd.index hd.args.entry ∧
        reply = hd.args.reply (κ.node u hd.server).kv.db
  | 0, hhd => by simp [run] at hhd
  | t + 1, hhd => by
    rcases (κ.step t).mem_handlers hhd with hhd | ⟨rq, hrq, rfl, -⟩ | ⟨k, hd₀, hh, hl, ht⟩
    · obtain ⟨u, hu, hap⟩ := reply_of_answered hr hlead hhd
      exact ⟨u, by omega, hap⟩
    · cases hr
    · refine ⟨t, by omega, ?_⟩
      rw [ht.call.2.2.1]
      exact (κ.served t).reply_turn hh hl ht hr hlead

/-! ## The log, entry by entry -/

/-- The store after `k` entries of the log. -/
def storeAt (log : ℕ → Op) (k : ℕ) : String → String :=
  (RaftKV.replay ((List.range k).map log)).db

/-- How many entries of the log some server has applied by time `t`. -/
def reach (κ : Schedule n) (t : ℕ) : ℕ :=
  (Finset.range (t + 1)).sup fun u => Finset.univ.sup fun p => (κ.node u p).applied.length

theorem lt_reach {t i : ℕ} :
    i < κ.reach t ↔ ∃ u ≤ t, ∃ p, i < (κ.node u p).applied.length := by
  simp only [reach, Finset.lt_sup_iff, Finset.mem_range, Nat.lt_succ_iff, Finset.mem_univ,
    true_and]

theorem reach_mono {t u : ℕ} (htu : t ≤ u) : κ.reach t ≤ κ.reach u := by
  by_contra hlt
  obtain ⟨v, hv, p, hlen⟩ := lt_reach.mp (Nat.lt_of_not_le hlt)
  exact (lt_reach.mpr ⟨v, hv.trans htu, p, hlen⟩).false

section Log

variable (hlog : κ.Always (FromLog log))
include hlog

theorem entries_eq (t : ℕ) (p : Fin n) :
    (κ.node t p).entries = (List.range (κ.node t p).applied.length).map log := by
  refine List.ext_getElem? fun k => ?_
  rcases Nat.lt_or_ge k (κ.node t p).applied.length with hk | hk
  · rw [(inLog hlog t p).entries hk]
    simp [hk]
  · rw [List.getElem?_eq_none (by simpa [Node.entries] using hk),
      List.getElem?_eq_none (by simpa using hk)]

/-- Every entry that a server has applied by time `t` is of a call that has begun. -/
theorem call_of_log {t i : ℕ} (hi : i < κ.reach t) :
    ∃ (j : ℕ) (call : Call), (κ.run t).calls[j]? = some call ∧ call.args.entry = log i := by
  obtain ⟨u, hu, p, hi⟩ := lt_reach.mp hi
  obtain ⟨j, y, hy, hentry⟩ := issued_of_hasApplied hlog
    ((inLog hlog u p).hasApplied_iff.mpr ⟨i, hi, rfl, rfl⟩)
  obtain ⟨call, hj, -, hargs⟩ := call_of_issued (issued_mono hu hy)
  exact ⟨j, call, hj, by rw [hargs, hentry]⟩

/-- A call that returns gets the reply of the store after some entries of the log, its own among
them, that a server had applied by then. -/
theorem reply_of_returns (hkeep : κ.Always KeepsAck) {t j : ℕ} {call : Call} {reply : Reply}
    (hj : (κ.run t).calls[j]? = some call) (hp : call.phase = .returned reply) :
    ∃ k ≤ κ.reach t, (∃ i < k, log i = call.args.entry) ∧
      reply = call.args.reply (storeAt log k) := by
  obtain ⟨hd, hhd, hargs, hr, hlead⟩ := answered_of_returned hj hp
  obtain ⟨u, hu, hap, hreply⟩ := reply_of_answered hr hlead hhd
  obtain ⟨i, hi, -, hop⟩ := (inLog hlog u hd.server).hasApplied_iff.mp hap
  refine ⟨(κ.node u hd.server).applied.length, ?_, ⟨i, hi, ?_⟩, ?_⟩
  · by_contra hlt
    exact (lt_reach.mpr ⟨u, hu, hd.server, Nat.lt_of_not_le hlt⟩).false
  · rw [← hop, hargs]
  · rw [hreply, hargs, (replayed hkeep u hd.server).db, entries_eq hlog, storeAt]

variable (hid : Function.Injective κ.id)
include hid

omit hlog in
/-- An entry is that of one call. -/
theorem call_inj {t i j : ℕ} {c c' : Call} (hi : (κ.run t).calls[i]? = some c)
    (hj : (κ.run t).calls[j]? = some c') (h : c.args.entry = c'.args.entry) : i = j :=
  issued_inj hid (Service.issued_of_call hi) (Service.issued_of_call hj)
    (by rw [h]) (by rw [h])

/-- What is called after time `u` is not in the log as far as it was applied by then. -/
theorem reach_le_of_later {t u i j : ℕ} {call : Call} (hut : u ≤ t)
    (hj : (κ.run t).calls[j]? = some call) (hlen : (κ.run u).calls.length ≤ j)
    (hi : log i = call.args.entry) : κ.reach u ≤ i := by
  by_contra hlt
  obtain ⟨j', c', hj', hentry⟩ := call_of_log hlog (Nat.lt_of_not_le hlt)
  have hlt' := (List.getElem?_eq_some_iff.mp hj').1
  obtain ⟨call', hcall', hargs⟩ : ∃ call', (κ.run t).calls[j']? = some call' ∧
      call'.args = c'.args := by
    obtain ⟨call', hcall', -, hargs⟩ :=
      call_of_issued (issued_mono hut (Service.issued_of_call hj'))
    exact ⟨call', hcall', hargs⟩
  have := call_inj hid hcall' hj (by rw [hargs, hentry, hi])
  omega

/-- A client's entries come in the order of their numbers, apart from repetitions. -/
theorem seen_iff (hone : κ.Always OneAtATime) {t i : ℕ} (hi : i < κ.reach t) :
    Dedup.Seen Op.id Op.reqId (Dedup.table Op.id Op.reqId ((List.range i).map log)) (log i) ↔
      ∃ i' < i, log i' = log i := by
  rw [Dedup.seen_table_iff]
  constructor
  · rintro ⟨b, hb, hbid, hle⟩
    obtain ⟨i', hi', rfl⟩ := List.mem_map.mp hb
    have hi' := List.mem_range.mp hi'
    obtain ⟨j, call, hj, hentry⟩ := call_of_log hlog hi
    obtain ⟨u, hu, p, hlen⟩ := lt_reach.mp hi
    rcases hle.lt_or_eq with hlt | heq
    · obtain ⟨i'', hi'', hlog''⟩ := logged_before hlog hid hone hj (p := p) (hi'.trans hlen)
        (by rw [hbid, hentry]) (by rw [hentry]; exact hlt)
      exact ⟨i'', hi''.trans hi', by rw [hlog'', hentry]⟩
    · have hmem : log i' ∈ (κ.node u p).entries :=
        List.mem_of_getElem? ((inLog hlog u p).entries (hi'.trans hlen))
      refine ⟨i', hi', ?_⟩
      rw [entry_eq hlog hid hj hmem (by rw [hbid, hentry]) (by rw [hentry, heq]), hentry]
  · rintro ⟨i', hi', heq⟩
    exact ⟨log i', List.mem_map_of_mem (List.mem_range.mpr hi'), by rw [heq], by rw [heq]⟩

/-- The store changes where the log has an operation first. -/
theorem storeAt_succ (hone : κ.Always OneAtATime) {t i : ℕ} (hi : i < κ.reach t) :
    ((∃ i' < i, log i' = log i) ∧ storeAt log (i + 1) = storeAt log i) ∨
      ((∀ i' < i, log i' ≠ log i) ∧ storeAt log (i + 1) = (log i).run (storeAt log i)) := by
  have hseen := seen_iff hlog hid hone hi
  unfold storeAt
  rw [List.range_succ, List.map_append, List.map_singleton, RaftKV.replay_db, Dedup.passed_concat,
    RaftKV.replay_db, List.foldl_append]
  by_cases h : ∃ i' < i, log i' = log i
  · rw [if_pos (hseen.mpr h)]
    exact .inl ⟨h, rfl⟩
  · rw [if_neg (mt hseen.mp h)]
    refine .inr ⟨fun i' hi' heq => h ⟨i', hi', heq⟩, rfl⟩

end Log

/-! ## Where a call takes effect -/

/-- The place of a call: the entry `i` is at `2 * i + 1`, and what is between the first `k` entries
and the next is at `2 * k`. -/
inductive Takes (κ : Schedule n) (log : ℕ → Op) (t j : ℕ) (call : Call) : ℕ → Prop
  | update {args : PutAppendArgs} {i : ℕ} (ha : call.args = .putAppend args)
    (hi : i < κ.reach t) (hentry : log i = call.args.entry) (hfirst : ∀ i' < i, log i' ≠ log i) :
    Takes κ log t j call (2 * i + 1)
  | read {args : GetArgs} {reply : Reply} {k : ℕ} (ha : call.args = .get args)
    (hp : call.phase = .returned reply) (hentry : ∃ i < k, log i = call.args.entry)
    (hreply : reply = call.args.reply (storeAt log k))
    (hk : ∀ u reply, κ.Returns u j reply → k ≤ κ.reach u) :
    Takes κ log t j call (2 * k)

/-- The state of the store at a place. -/
def stateAt (κ : Schedule n) (log : ℕ → Op) (t m : ℕ) : String → String :=
  storeAt log (min (m / 2) (κ.reach t))

theorem Takes.update_inj {t j i q : ℕ} {call : Call} {args : PutAppendArgs}
    (h : Takes κ log t j call q) (ha : call.args = .putAppend args)
    (hentry : log i = call.args.entry) (hfirst : ∀ i' < i, log i' ≠ log i) : q = 2 * i + 1 := by
  cases h with
  | @update _ i' _ _ hentry' hfirst' =>
    rcases Nat.lt_trichotomy i i' with hlt | rfl | hlt
    · exact absurd (hentry.trans hentry'.symm) (hfirst' i hlt)
    · rfl
    · exact absurd (hentry'.trans hentry.symm) (hfirst i' hlt)
  | read ha' => rw [ha] at ha'; cases ha'

section Log

variable (hlog : κ.Always (FromLog log)) (hkeep : κ.Always KeepsAck)
include hlog hkeep

/-- A call that has returned has a place. -/
theorem exists_takes {t j : ℕ} {call : Call} {reply : Reply}
    (hj : (κ.run t).calls[j]? = some call) (hp : call.phase = .returned reply) :
    ∃ q, Takes κ log t j call q := by
  classical
  -- the reply was there when the call returned
  have hex : ∃ u reply, κ.Returns u j reply := ⟨t, reply, call, hj, hp⟩
  obtain ⟨reply', call', hj', hp'⟩ := Nat.find_spec hex
  have hle : ∀ u reply, κ.Returns u j reply → Nat.find hex ≤ u := fun u reply h =>
    Nat.find_min' hex ⟨reply, h⟩
  obtain rfl : call' = call := Option.some.inj
    ((returned_call (hle t reply ⟨call, hj, hp⟩) hj' hp').symm.trans hj)
  obtain rfl : reply' = reply := CallPhase.returned.inj (hp'.symm.trans hp)
  obtain ⟨k, hk, hentry, hreply⟩ := reply_of_returns hlog hkeep hj' hp'
  rcases ha : call'.args with args | args
  · exact ⟨_, .read ha hp hentry hreply fun u reply h => hk.trans (reach_mono (hle u reply h))⟩
  · have hentry' : ∃ i, log i = call'.args.entry := ⟨_, hentry.choose_spec.2⟩
    have hlt : Nat.find hentry' < k := by
      obtain ⟨i, hi, hlogi⟩ := hentry
      exact (Nat.find_min' hentry' hlogi).trans_lt hi
    refine ⟨_, .update ha ?_ (Nat.find_spec hentry') fun i' hi' heq => ?_⟩
    · exact hlt.trans_le (hk.trans (reach_mono (hle t _ ⟨call', hj, hp⟩)))
    · exact Nat.find_min hentry' hi' (heq.trans (Nat.find_spec hentry'))

/-- What has returned by time `u` has its place in what was applied by then. -/
theorem Takes.le_of_returns {t u j q : ℕ} {call : Call} {reply : Reply}
    (h : Takes κ log t j call q) (hut : u ≤ t) (hj : (κ.run t).calls[j]? = some call)
    (hret : κ.Returns u j reply) : q ≤ 2 * κ.reach u := by
  obtain ⟨call', hj', hp'⟩ := hret
  obtain rfl : call' = call := Option.some.inj ((returned_call hut hj' hp').symm.trans hj)
  cases h with
  | @update _ i ha hi hentry hfirst =>
    obtain ⟨k, hk, ⟨i', hi', hlogi⟩, -⟩ := reply_of_returns hlog hkeep hj' hp'
    have hle : i ≤ i' := by
      by_contra hlt
      exact hfirst i' (Nat.lt_of_not_le hlt) (hlogi.trans hentry.symm)
    omega
  | read _ _ _ _ hk =>
    have := hk u _ ⟨call', hj', hp'⟩
    omega

omit hkeep in
/-- What is called after time `u` has its place after what was applied by then. -/
theorem Takes.lt_of_later (hid : Function.Injective κ.id) {t u j q : ℕ} {call : Call}
    (h : Takes κ log t j call q) (hut : u ≤ t) (hj : (κ.run t).calls[j]? = some call)
    (hlen : (κ.run u).calls.length ≤ j) : 2 * κ.reach u < q := by
  cases h with
  | update _ _ hentry =>
    have := reach_le_of_later hlog hid hut hj hlen hentry
    omega
  | read _ _ hentry =>
    obtain ⟨i, hi, hlogi⟩ := hentry
    have := reach_le_of_later hlog hid hut hj hlen hlogi
    omega

/-- At its place the store does what the call asks for, and gives the reply. -/
theorem Takes.serves (hid : Function.Injective κ.id) (hone : κ.Always OneAtATime) {t j q : ℕ}
    {call : Call} (h : Takes κ log t j call q) (hj : (κ.run t).calls[j]? = some call) :
    store.Serves (κ.history t) (κ.stateAt log t q) j (κ.stateAt log t (q + 1)) := by
  refine ⟨call.args, by simp [history, hj], ?_, fun r hr => ?_⟩
  · cases h with
    | @update _ i ha hi hentry hfirst =>
      have hnext : storeAt log (i + 1) = (log i).run (storeAt log i) := by
        rcases storeAt_succ hlog hid hone hi with ⟨⟨i', hi', heq⟩, -⟩ | ⟨-, h⟩
        · exact absurd heq (hfirst i' hi')
        · exact h
      rw [stateAt, stateAt, show min ((2 * i + 1) / 2) (κ.reach t) = i by omega,
        show min ((2 * i + 1 + 1) / 2) (κ.reach t) = i + 1 by omega, hnext, hentry]
      rfl
    | @read _ _ k ha =>
      rw [stateAt, stateAt, show (2 * k + 1) / 2 = 2 * k / 2 by omega, ha]
      rfl
  · have hr : call.phase = .returned r := by
      simpa [history, hj, Call.reply_eq_some] using hr
    cases h with
    | update ha =>
      obtain ⟨_, -, -, hreply⟩ := reply_of_returns hlog hkeep hj hr
      rw [hreply, ha]
      rfl
    | @read _ reply k ha hp hentry hreply hk =>
      obtain rfl : reply = r := CallPhase.returned.inj (hp.symm.trans hr)
      have := hk t reply ⟨call, hj, hr⟩
      rw [hreply, stateAt, show min (2 * k / 2) (κ.reach t) = k by omega]
      rfl

omit hkeep in
/-- Where the state changes there is a call, and only one. -/
theorem exists_takes_of_change (hid : Function.Injective κ.id) (hone : κ.Always OneAtATime)
    {t m : ℕ} (h : κ.stateAt log t (m + 1) ≠ κ.stateAt log t m) :
    ∃ (i j : ℕ) (call : Call) (args : PutAppendArgs), m = 2 * i + 1 ∧
      (κ.run t).calls[j]? = some call ∧ call.args = .putAppend args ∧ i < κ.reach t ∧
      log i = call.args.entry ∧ ∀ i' < i, log i' ≠ log i := by
  unfold stateAt at h
  have hm : m = 2 * (m / 2) + 1 ∧ m / 2 < κ.reach t := by
    by_contra hno
    refine h (congrArg (storeAt log) ?_)
    omega
  set i := m / 2
  rw [show min ((m + 1) / 2) (κ.reach t) = i + 1 by omega,
    show min i (κ.reach t) = i by omega] at h
  rcases storeAt_succ hlog hid hone hm.2 with ⟨-, heq⟩ | ⟨hfirst, hnext⟩
  · exact absurd heq h
  · obtain ⟨j, call, hj, hentry⟩ := call_of_log hlog hm.2
    rcases ha : call.args with args | args
    · rw [hnext, ← hentry, ha] at h
      exact absurd rfl h
    · exact ⟨i, j, call, args, hm.1, hj, ha, hm.2, hentry.symm, hfirst⟩

end Log

open Classical in
/-- The calls that have a place. -/
noncomputable def placed (κ : Schedule n) (log : ℕ → Op) (t : ℕ) : List ℕ :=
  (List.range (κ.run t).calls.length).filter fun j =>
    ∃ q call, (κ.run t).calls[j]? = some call ∧ Takes κ log t j call q

theorem mem_placed {t j : ℕ} : j ∈ κ.placed log t ↔
    ∃ q call, (κ.run t).calls[j]? = some call ∧ Takes κ log t j call q := by
  simp only [placed, List.mem_filter, List.mem_range, decide_eq_true_eq, and_iff_right_iff_imp]
  rintro ⟨q, call, hj, -⟩
  exact (List.getElem?_eq_some_iff.mp hj).1

end Schedule

/-- A service on a Raft cluster is linearizable, if the Clerks make one call after another and no
`Get` lowers `ack`: at any time the calls so far are those of one store. -/
theorem RunsOn.linearizes {κ : Schedule n} {σ : DistSystem.Schedule n Op} (hon : RunsOn κ σ)
    (hid : Function.Injective κ.id) (hone : κ.Always OneAtATime) (hkeep : κ.Always KeepsAck)
    (t : ℕ) : ∃ l, store.Linearizes (κ.history t) l := by
  have hlog := Schedule.fromLog_of_runsOn hon
  set log := Schedule.raftLog σ
  have hplaced : ∀ j ∈ κ.placed log t, ∃ q, ∃ call, (κ.run t).calls[j]? = some call ∧
      Schedule.Takes κ log t j call q := fun j hj => Schedule.mem_placed.mp hj
  choose! place hplace using hplaced
  have hpl : store.Places (κ.history t) (κ.placed log t) place (κ.stateAt log t) := by
    refine ⟨List.nodup_range.filter _, fun j hj => ?_, fun i hi j hj hij => ?_, ?_, fun j hj => ?_,
      fun m hm => ?_⟩
    · obtain ⟨reply, hr⟩ := Option.ne_none_iff_exists'.mp hj
      obtain ⟨c, hc, hr⟩ := Option.bind_eq_some_iff.mp hr
      obtain ⟨q, hq⟩ := Schedule.exists_takes hlog hkeep hc (Call.reply_eq_some.mp hr)
      exact Schedule.mem_placed.mpr ⟨q, c, hc, hq⟩
    · obtain ⟨u, hu, ⟨reply, hret⟩, hlen⟩ := hij
      obtain ⟨c, hc, hci⟩ := hplace i hi
      obtain ⟨c', hc', hcj⟩ := hplace j hj
      exact (hci.le_of_returns hlog hkeep hu hc hret).trans_lt
        (hcj.lt_of_later hlog hid hu hc' hlen)
    · rw [Schedule.stateAt, Nat.zero_div, Nat.zero_min]
      rfl
    · obtain ⟨c, hc, hcj⟩ := hplace j hj
      exact hcj.serves hlog hkeep hid hone hc
    · obtain ⟨i, j, c, args, rfl, hj, ha, hi, hentry, hfirst⟩ :=
        Schedule.exists_takes_of_change hlog hid hone hm
      have hjmem := Schedule.mem_placed.mpr ⟨_, c, hj, .update ha hi hentry hfirst⟩
      refine ⟨j, hjmem, ?_, fun j' hj' hq => ?_⟩
      · obtain ⟨c', hc', htake⟩ := hplace j hjmem
        obtain rfl := Option.some.inj (hc'.symm.trans hj)
        exact htake.update_inj ha hentry hfirst
      · obtain ⟨c', hc', htake⟩ := hplace j' hj'
        generalize place j' = q at htake hq
        cases htake with
        | @update _ i' _ _ hentry' =>
          obtain rfl : i' = i := by omega
          exact Schedule.call_inj hid hc' hj (hentry'.symm.trans hentry)
        | read => omega
  exact hpl.exists_linearizes

end DistSystem.KV
