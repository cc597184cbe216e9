import DistSystem.Proofs.KVRefine
import DistSystem.Proofs.RaftReply

/-!
# Panics of the processes

The goroutines of a process share Raft and the store, and each has checks that end the process if
they fail: `stateMachine` that the commit index is in the log, `getApply` that the indices come in
order and carry operations, and every access to the log that it is in range; and the ticker, that
there is room in `tickc`. Whatever the order of events, if requests are encoded with the entries
they were built with, only two of them ever fail: the ticker, and the event loop of a leader that
takes a rejection past the end of its log (`Plan.crash_pastEnd`).
-/

namespace DistSystem

/-- `stateMachine` finds what is committed. -/
theorem Schedule.stateMachine_ok {n : ℕ} {C : Type} (σ : Schedule n C) (t : ℕ) (p : Fin n) :
    ∃ r, (σ.raft t p).stateMachine = .ok r := by
  match n with
  | 0 => exact p.elim0
  | 1 =>
    obtain rfl : p = 0 := Subsingleton.elim _ _
    exact ⟨_, stateMachine_single (σ.singleCluster t).ok⟩
  | n + 2 =>
    have h := σ.clusterOk (by omega) t
    obtain ⟨r, heq, -⟩ := stateMachine_handled h.run (h.abs p) (h.ok p)
    exact ⟨r, heq⟩

namespace KV

variable {n : ℕ} {K : Prop} {σ : DistSystem.Schedule n Op} {u : ℕ} {S : Service n} {p : Fin n}
  {s : Deployment n} {y : Process n} {e : Process.Event n} {msg : String}

/-! ## One event -/

/-- There is a check in the event. -/
def Process.Event.checks : Process.Event n → Bool
  | .tick _ => true
  | .recv _ _ => true
  | .command _ => true
  | .commit => true
  | .read => true
  | .deliver => true
  | .finish => true
  | _ => false

theorem Process.crash_next {s : Process n} (he : e.checks = false) (hs : s.next e = some y) :
    y.crash = s.crash := by
  cases e with
  | tick | recv | command | commit | read | deliver | finish => cases he
  | _ =>
    simp only [next] at hs
    repeat' split at hs
    all_goals
      first
      | cases hs; rfl
      | cases hs

/-- What is applied on the cluster are operations, with the indices 1, 2 and so on. -/
theorem RunsOn.applyCh {κ : Schedule n} (h : RunsOn κ σ) {t k : ℕ} {m : ApplyMsg Op}
    (hm : (σ.raft t p).applyCh[k]? = some m) : ∃ op, m = ⟨k + 1, some op⟩ := by
  obtain ⟨hmsg, u, -, q, -, hact⟩ := σ.applyCh_log hm
  obtain ⟨⟨hd, index⟩, -, -, hentry, -⟩ := (h u).1 (q, _) (by rw [hact]; rfl)
  exact ⟨hd.args.entry, hmsg.trans (congrArg (ApplyMsg.mk (k + 1)) hentry.symm)⟩

theorem RaftKV.take_eq_ok (kv : RaftKV) (op : Op) :
    kv.take ⟨kv.prevIndex + 1, some op⟩ = .ok (op, { kv with prevIndex := kv.prevIndex + 1 }) :=
  if_neg fun h => h.2 rfl

theorem status_finish_error (c : Cluster n Op) (p : Fin n) (i : ℕ) (e : Panic n Op) :
    ((c.finish p i (.error e)).nodes p).status = .panicked e.msg := by
  simp [Cluster.finish, Cluster.setNode, DistSystem.Node.fail]

theorem handled_eq_error {s : Process n} (hs : s.crash = none)
    {z : Go n Op (Raft n Op × List (Message n Op))} (hc : (s.handled z).crash = some msg) :
    ∃ e, z = .error e ∧ e.msg = msg := by
  rcases z with e | ⟨r, msgs⟩
  · exact ⟨e, rfl, Option.some.inj hc⟩
  · cases hs.symm.trans hc

namespace Deployment.Matches

variable (hm : s.Matches K σ u S) (ha : (s.hosts p).Alive)

include hm ha

/-- A panic in a process is one of the server in the cluster. -/
theorem run_panics (hs : (s.hosts p).process.next e = some y) (hc : y.crash = some msg)
    (hext : e.external = false) (hin : InOrder (S.nodes p))
    (hch : ∀ (k : ℕ) (m : ApplyMsg Op), (σ.raft (u + 1) p).applyCh[k]? = some m →
      ∃ op, m = ⟨k + 1, some op⟩)
    (hact : σ.act u = ((s.hosts p).image p y e).2) :
    ((σ.run (u + 1)).nodes p).status = .panicked msg := by
  have hl := (hm.hosts p).lives ha
  have hraft := (hm.hosts p).raft
  obtain ⟨r, hmachine⟩ := σ.stateMachine_ok u p
  rw [hraft] at hmachine
  cases hchk : e.checks with
  | false => cases ha.2.symm.trans ((Process.crash_next hchk hs).symm.trans hc)
  | true =>
    cases e with
    | tick rnd =>
      simp only [Process.next, Option.ite_none_right_eq_some, Option.some.injEq] at hs
      obtain ⟨hi, rfl⟩ := hs
      obtain ⟨e, hz, rfl⟩ := handled_eq_error ha.2 hc
      have hrun : σ.run (u + 1) =
          (σ.run u).finish p ((σ.run u).nodes p).incarnation (.error e) := by
        show (σ.run u).exec (σ.act u) = _
        rw [hact, ← hz, ← hraft]
        exact if_pos (hm.ready ha hi)
      rw [hrun, status_finish_error]
    | command h =>
      simp only [Process.next] at hs
      split at hs
      · rename_i args hx
        obtain ⟨r, msgs, reply, hstart⟩ := σ.handleStart_ok u p (some args.entry)
        rw [hraft] at hstart
        simp only [hstart, Option.ite_none_right_eq_some, Option.some.injEq] at hs
        obtain ⟨-, rfl⟩ := hs
        cases ha.2.symm.trans hc
      · cases hs
    | commit =>
      simp only [Process.next, hmachine] at hs
      split at hs
      · cases hs
        cases ha.2.symm.trans hc
      · cases hs
    | finish =>
      simp only [Process.next, hmachine] at hs
      split at hs
      · simp only [Option.ite_none_right_eq_some, Option.some.injEq] at hs
        obtain ⟨-, rfl⟩ := hs
        cases ha.2.symm.trans hc
      · cases hs
    | read =>
      simp only [Process.next] at hs
      split at hs
      · rename_i i c hmsg hap
        simp only [Option.ite_none_right_eq_some] at hs
        obtain ⟨hic, hs⟩ := hs
        cases he : (s.hosts p).process.raft.entry i with
        | ok e =>
          simp only [he, Option.some.injEq] at hs
          subst hs
          cases ha.2.symm.trans hc
        | error e =>
          -- `stateMachine` would have found the entry missing too
          simp only [Raft.stateMachine, hap, if_pos hic, he] at hmachine
          cases hmachine
      · cases hs
    | deliver =>
      simp only [Process.next] at hs
      split at hs
      · rename_i m i c hmsg hap hsel
        have hlen : (s.hosts p).process.raft.applyCh.length = (S.nodes p).applied.length := by
          have hst := hl.stream
          rwa [hsel] at hst
        have hsm := hm.machine_of_msg ha hmsg hap
        have hafter := (hm.machine_server hl.cluster hsm hact).1.raft
        obtain ⟨op, rfl⟩ := hch (s.hosts p).process.raft.applyCh.length m (by
          show ((σ.run (u + 1)).nodes p).raft.applyCh[_]? = _
          rw [hafter]
          exact List.getElem?_concat_length)
        rw [hlen, ← hin.prevIndex, ← hl.atomic.prevIndex_eq hsel, RaftKV.take_eq_ok] at hs
        cases hs
        cases ha.2.symm.trans hc
      · cases hs
    | recv => cases hext
    | _ => cases hchk

end Deployment.Matches

/-- The ticker of `p` fires and finds no room. -/
def Deployment.MissesTick (s : Deployment n) (ev : Deployment.Event n) (p : Fin n) : Prop :=
  ev = .ring p ∧ 10 ≤ (s.hosts p).ticks

/-- What is new in a panic at `p` after an event: it is one in the cluster too, or the ticker's. -/
def Deployment.Breaks (s : Deployment n) (ev : Deployment.Event n) (σ : DistSystem.Schedule n Op)
    (u : ℕ) (p : Fin n) (msg : String) : Prop :=
  ((σ.run (u + 1)).nodes p).status = .panicked msg ∨
    msg = "A tick missed to fire. Node blocks too long!" ∧ s.MissesTick ev p

/-- Every panic has been there before, or is a new one that meets `P`. -/
def Deployment.PanicsFrom (s s' : Deployment n) (P : Fin n → String → Prop) : Prop :=
  ∀ p msg, (s'.hosts p).process.crash = some msg →
    (s.hosts p).process.crash = some msg ∨ P p msg

namespace Deployment.PanicsFrom

variable {P : Fin n → String → Prop}

theorem of_hosts_eq {s' : Deployment n} (h : s'.hosts = s.hosts) : s.PanicsFrom s' P :=
  fun p _ hc => .inl (by rwa [h] at hc)

theorem of_update {s' : Deployment n} {x : Host n} (hs : s'.hosts = Function.update s.hosts p x)
    (hx : ∀ msg, x.process.crash = some msg →
      (s.hosts p).process.crash = some msg ∨ P p msg) : s.PanicsFrom s' P := by
  intro q msg hc
  rw [hs] at hc
  rcases eq_or_ne q p with rfl | hq
  · rw [Function.update_self] at hc
    exact hx msg hc
  · rw [Function.update_of_ne hq] at hc
    exact .inl hc

end Deployment.PanicsFrom

namespace Deployment.Matches

open Deployment.PanicsFrom

variable (hm : s.Matches K σ u S)

include hm

/-- The event loop takes a message. -/
theorem panics_deliver (k rnd : ℕ) (hact : σ.act u = (s.image (.deliver k rnd)).1.2) :
    s.PanicsFrom (s.exec (.deliver k rnd)) (s.Breaks (.deliver k rnd) σ u) := by
  simp only [Deployment.exec]
  simp only [Deployment.image] at hact
  rcases hk : s.net[k]? with _ | ⟨pk, _ | slice⟩
  · exact of_hosts_eq rfl
  · have hpk : s.packets[k]? = some pk := by simp [Deployment.packets, hk]
    simp only [hk] at hact
    simp only
    split_ifs at hact ⊢ with hrecv
    · cases hs : (s.hosts pk.msg.dst).step (.recv rnd pk.msg) with
      | none => exact of_hosts_eq rfl
      | some y =>
        obtain ⟨ha, hnext⟩ := Host.step_eq_some.mp hs
        rw [hs] at hact
        simp only [Process.next, Option.ite_none_right_eq_some, Option.some.injEq] at hnext
        obtain ⟨hi, rfl⟩ := hnext
        refine of_update rfl fun msg hc => .inr (.inl ?_)
        obtain ⟨e, hz, rfl⟩ := handled_eq_error ha.2 hc
        rw [hm.deliver_server hpk hrecv ha hi hact, hz, status_finish_error]
    · exact of_hosts_eq rfl
  · exact of_hosts_eq rfl

theorem panics (hin : ∀ p, InOrder (S.nodes p))
    (hch : ∀ (p : Fin n) (k : ℕ) (m : ApplyMsg Op), (σ.raft (u + 1) p).applyCh[k]? = some m →
      ∃ op, m = ⟨k + 1, some op⟩)
    (ev : Deployment.Event n) (hact : σ.act u = (s.image ev).1.2) :
    s.PanicsFrom (s.exec ev) (s.Breaks ev σ u) := by
  cases ev with
  | client a =>
    simp only [Deployment.exec]
    split_ifs
    · exact of_hosts_eq rfl
    · exact of_hosts_eq rfl
  | dispatch k =>
    simp only [Deployment.exec]
    cases hk : s.requests[k]? with
    | none => exact of_hosts_eq rfl
    | some rq =>
      cases hs : (s.hosts rq.server).step (.spawn rq.args) with
      | none =>
        simp only [hs]
        exact of_hosts_eq rfl
      | some y =>
        obtain ⟨-, hnext⟩ := Host.step_eq_some.mp hs
        simp only [hs]
        exact of_update rfl fun msg hc => .inl ((Process.crash_next rfl hnext).symm.trans hc)
  | run p e =>
    simp only [Deployment.exec]
    simp only [Deployment.image] at hact
    split_ifs at hact ⊢ with hblocked
    · exact of_hosts_eq rfl
    · cases hs : (s.hosts p).step e with
      | none => exact of_hosts_eq rfl
      | some y =>
        obtain ⟨ha, hnext⟩ := Host.step_eq_some.mp hs
        rw [hs] at hact
        exact of_update rfl fun msg hc => .inr (.inl (hm.run_panics ha hnext hc
          (Host.external_of_not_blocked hblocked) (hin p) (hch p) hact))
  | ring p =>
    simp only [Deployment.exec]
    split_ifs with ha
    · refine of_update rfl fun msg hc => ?_
      unfold Host.ring at hc
      split_ifs at hc with hroom
      · exact .inl hc
      · exact .inr (.inr ⟨(Option.some.inj hc).symm, rfl, Nat.le_of_not_lt hroom⟩)
    · exact of_hosts_eq rfl
  | encode k =>
    simp only [Deployment.exec]
    split
    · split_ifs
      · exact of_hosts_eq rfl
      · exact of_hosts_eq rfl
    · exact of_hosts_eq rfl
  | deliver k rnd => exact hm.panics_deliver k rnd hact
  | drop k => exact of_hosts_eq rfl
  | crash p => exact of_update rfl fun msg hc => .inl hc
  | restart p rnd =>
    simp only [Deployment.exec]
    split_ifs
    · exact of_hosts_eq rfl
    · refine of_update rfl fun msg hc => ?_
      cases hc

end Deployment.Matches

/-! ## Runs -/

namespace Plan

variable {π : Plan n}

theorem panicked (hin : π.Always Deployment.Intact) {msg : String} : ∀ {t : ℕ},
    ((π.run t).hosts p).process.crash = some msg → ∃ v < t, (π.run v).Breaks (π.act v) π.cluster
      (2 * v) p msg
  | 0 => fun hc => by cases hc
  | t + 1 => fun hc => by
    have hm := matched (K := False) hin (fun h => h.elim) t
    have hon := runsOn hin
    have hfrom := hm.panics (fun p => Schedule.inOrder (Schedule.fromLog_of_runsOn hon) (2 * t) p)
      (fun p k m h => hon.applyCh h) (π.act t) (congrArg Prod.snd (π.pair_two_mul t))
    rcases hfrom p msg hc with hold | hnew
    · obtain ⟨v, hv, h⟩ := panicked hin hold
      exact ⟨v, Nat.lt_succ_of_lt hv, h⟩
    · exact ⟨t, Nat.lt_succ_self t, hnew⟩

end Plan

end KV

end DistSystem
