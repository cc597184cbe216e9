import DistSystem.KV.Channels
import DistSystem.Proofs.RaftStream

/-!
# No circular wait

The event loop waits for `stateMachine`, `stateMachine` for `getApply`, and `getApply` for whoever
has `kv.mu`. Nobody waits for another goroutine while it has `kv.mu`: a handler makes its way out by
itself, and `getApply` has emptied the channel that it sends on. A handler that is at `m.done` waits
for nothing else. So wherever one of them waits, some goroutine can go on
(`Process.no_circular_wait`).
-/

namespace DistSystem.KV

open Interleaving

variable {n : ℕ}

/-! ## The channels of `result` -/

namespace RaftKV

variable {kv : RaftKV}

theorem send_drain (kv : RaftKV) (index : ℕ) (op : Op) :
    (kv.drain index).send index op = some (kv.notify index op) := by
  simp [send, drain, notify]

theorem getApply_eq_take (kv : RaftKV) (applyMsg : ApplyMsg Op) :
    kv.getApply applyMsg = (kv.take applyMsg).map fun x =>
      (x.2.apply x.1).notify applyMsg.index x.1 := by
  rcases applyMsg with ⟨index, _ | op⟩
  · rfl
  · simp only [getApply, take]
    split_ifs <;> rfl

/-- An empty channel stays as it is. -/
theorem result_lookup {i : ℕ} (h : kv.result i = some none) (index : ℕ) :
    (kv.lookup index).result i = some none := by
  unfold lookup
  split
  · exact h
  · rcases eq_or_ne i index with rfl | hne
    · simp
    · simpa [hne] using h

theorem result_receive {i index : ℕ} (h : kv.result i = some none) {op : Op} {kv' : RaftKV}
    (hr : kv.receive index = some (op, kv')) : kv'.result i = some none := by
  unfold receive at hr
  split at hr
  · rw [Option.some.injEq, Prod.mk.injEq] at hr
    rw [← hr.2]
    rcases eq_or_ne i index with rfl | hne
    · simp
    · simpa [hne] using h
  · cases hr

end RaftKV

/-! ## Who is inside -/

/-- `getApply` has `kv.mu`. -/
def ApplyLoop.critical : ApplyLoop → Bool
  | .applying _ _ => true
  | .draining _ _ => true
  | .sending _ _ => true
  | .unlocking => true
  | _ => false

/-- The handler has `kv.mu`. -/
def Stage.critical : Stage → Bool
  | .looking _ => true
  | .unlocking _ => true
  | .getting _ => true
  | .getUnlocking _ => true
  | _ => false

namespace Process

variable {s s' : Process n} {e : Event n} {h k : ℕ} {stage : Stage}

def stageOf (s : Process n) (h : ℕ) : Option Stage := s.handlers[h]?.map Running.stage

def inside (s : Process n) : Holder → Bool
  | .getApply => s.apply.critical
  | .handler h => (s.stageOf h).any Stage.critical

theorem stageOf_eq {x : Running} (hx : s.handlers[h]? = some x) : s.stageOf h = some x.stage := by
  rw [stageOf, hx]
  rfl

theorem stageOf_setStage (s : Process n) (h : ℕ) (stage : Stage) (k : ℕ) :
    (s.setStage h stage).stageOf k =
      if h = k then (s.stageOf k).map fun _ => stage else s.stageOf k := by
  simp only [stageOf, setStage, List.getElem?_modify]
  split_ifs <;> simp [Function.comp_def]

theorem inside_congr (ha : s'.apply.critical = s.apply.critical) (hh : s'.handlers = s.handlers)
    (x : Holder) : s'.inside x = s.inside x := by
  cases x with
  | getApply => exact ha
  | handler k => simp only [inside, stageOf, hh]

/-- A handler that waits for its answer is still there when another one has gone on. -/
theorem stageOf_setStage_of_ne {stage₀ : Stage} (hst : s.stageOf h = some stage₀)
    (hne : stage₀ ≠ .awaiting) (stage : Stage) (hk : s.stageOf k = some .awaiting) :
    (s.setStage h stage).stageOf k = some .awaiting := by
  rw [stageOf_setStage, if_neg, hk]
  rintro rfl
  exact hne (Option.some.inj (hst.symm.trans hk))

theorem inside_setStage {stage₀ : Stage} (hst : s.stageOf h = some stage₀) (stage : Stage)
    (x : Holder) :
    (s.setStage h stage).inside x = if x = .handler h then stage.critical else s.inside x := by
  cases x with
  | getApply => rfl
  | handler k =>
    simp only [inside, stageOf_setStage, Holder.handler.injEq]
    rcases eq_or_ne h k with rfl | hne
    · simp [hst]
    · simp [hne, hne.symm]

theorem stageOf_spawn (args : Args) (hk : s.stageOf k = some stage) :
    stageOf { s with handlers := s.handlers ++ [⟨args, .starting⟩] } k = some stage := by
  obtain ⟨x, hx, rfl⟩ := Option.map_eq_some_iff.mp hk
  have hlt := (List.getElem?_eq_some_iff.mp hx).choose
  rw [stageOf, List.getElem?_append_left hlt, hx]
  rfl

theorem inside_spawn (s : Process n) (args : Args) (x : Holder) :
    inside { s with handlers := s.handlers ++ [⟨args, .starting⟩] } x = s.inside x := by
  cases x with
  | getApply => rfl
  | handler k =>
    simp only [inside, stageOf, List.getElem?_append, List.getElem?_singleton]
    split_ifs with hlt
    · rfl
    · rw [List.getElem?_eq_none (not_lt.mp hlt)]
      rfl
    · rw [List.getElem?_eq_none (not_lt.mp hlt)]

/-! ## One step -/

/-- What `stateMachine` sends is of a batch. -/
def Pending (s : Process n) : Prop := s.msg ≠ none → s.raft.applying ≠ none

/-- What a step can do to the places of the goroutines and to the channels of `result`, if it does
not end in a panic. -/
inductive Moves (s : Process n) : Process n → Prop
  | aside (s' : Process n) : s'.loop = s.loop → s'.mu = s.mu → s'.apply = s.apply →
      s'.handlers = s.handlers → s'.kv = s.kv → (s.Pending → s'.Pending) → Moves s s'
  | spawn (args : Args) : Moves s { s with handlers := s.handlers ++ [⟨args, .starting⟩] }
  | command (h : ℕ) (r : Raft n Op) (reply : Raft.StartReply) : s.stageOf h = some .proposing →
      r.applying = s.raft.applying →
      Moves s { s.setStage h .awaiting with raft := r, loop := .answering h reply }
  | done (h : ℕ) (stage : Stage) : s.stageOf h = some .awaiting → stage.critical = false →
      Moves s { s.setStage h stage with loop := .selecting }
  | apply (s' : Process n) : s'.loop = s.loop → s'.mu = s.mu → s'.handlers = s.handlers →
      s'.apply.critical = s.apply.critical →
      (∀ i op, s'.apply = .sending i op → s'.kv.result i = some none) →
      (s.Pending → s'.Pending) → Moves s s'
  | lockApply (i : ℕ) (op : Op) : s.mu = none →
      Moves s { s with mu := some .getApply, apply := .applying i op }
  | unlockApply : s.apply = .unlocking → Moves s { s with mu := none, apply := .selecting }
  | handler (h : ℕ) (stage₀ stage : Stage) (kv : RaftKV) : s.stageOf h = some stage₀ →
      stage₀ ≠ .awaiting →
      stage.critical = stage₀.critical →
      (∀ i, s.kv.result i = some none → kv.result i = some none) →
      Moves s { s.setStage h stage with kv := kv }
  | lock (h : ℕ) (stage₀ stage : Stage) : s.mu = none → s.stageOf h = some stage₀ →
      stage₀ ≠ .awaiting →
      stage.critical = true → Moves s { s.setStage h stage with mu := some (.handler h) }
  | unlock (h : ℕ) (stage₀ stage : Stage) : s.stageOf h = some stage₀ → stage₀.critical = true →
      stage.critical = false → Moves s { s.setStage h stage with mu := none }

theorem moves_handled {x : Go n Op (Raft n Op × List (Message n Op))}
    (hx : ∀ r msgs, x = .ok (r, msgs) → SameApplier s.raft r) (hc : (s.handled x).crash = none) :
    Moves s (s.handled x) := by
  rcases x with e | ⟨r, msgs⟩
  · cases hc
  · refine .aside _ rfl rfl rfl rfl rfl fun hp hm => ?_
    rw [show (s.handled (.ok (r, msgs))).raft.applying = s.raft.applying from
      (hx r msgs rfl).applying]
    exact hp hm

theorem moves_machine {x : Go n Op (Raft n Op)} (hm : s.msg = none)
    (hc : (s.machine x).crash = none) : Moves s (s.machine x) := by
  rcases x with e | r
  · cases hc
  · exact .aside _ rfl rfl rfl rfl rfl fun _ h => absurd hm h

theorem critical_started (args : Args) (reply : Raft.StartReply) :
    (started args reply).critical = false := by
  unfold started
  split_ifs <;> rfl

theorem critical_received (args : Args) (op : Op) : (received args op).critical = false := by
  unfold received
  split_ifs
  · split <;> rfl
  · rfl

theorem next_moves (hs : s.next e = some s') (hc : s'.crash = none) : Moves s s' := by
  cases e with
  | tick rnd =>
    simp only [next, Option.ite_none_right_eq_some, Option.some.injEq] at hs
    obtain ⟨-, rfl⟩ := hs
    exact moves_handled (fun r msgs hr => Raft.tick_applier hr) hc
  | recv rnd m =>
    simp only [next, Option.ite_none_right_eq_some, Option.some.injEq] at hs
    obtain ⟨-, rfl⟩ := hs
    exact moves_handled (fun r msgs hr => Raft.step_applier hr) hc
  | spawn args => exact Option.some.inj hs ▸ .spawn args
  | command h =>
    simp only [next] at hs
    split at hs
    · rename_i args hx
      simp only [Option.ite_none_right_eq_some] at hs
      obtain ⟨-, hs⟩ := hs
      split at hs
      · rename_i r msgs reply hr
        exact Option.some.inj hs ▸ .command h _ _ (stageOf_eq hx)
          (Raft.handleStart_applier hr).applying
      · obtain rfl := Option.some.inj hs
        cases hc
    · cases hs
  | done =>
    simp only [next] at hs
    split at hs
    · split at hs
      · rename_i args hx
        exact Option.some.inj hs ▸ .done _ _ (stageOf_eq hx) (critical_started _ _)
      · cases hs
    · cases hs
  | commit =>
    simp only [next] at hs
    split at hs
    · rename_i hm _ _
      obtain rfl := Option.some.inj hs
      exact moves_machine hm hc
    · cases hs
  | read =>
    simp only [next] at hs
    split at hs
    · rename_i i c hm ha
      simp only [Option.ite_none_right_eq_some] at hs
      obtain ⟨-, hs⟩ := hs
      split at hs
      · refine Option.some.inj hs ▸ .aside _ rfl rfl rfl rfl rfl fun _ _ => ?_
        simp [ha]
      · obtain rfl := Option.some.inj hs
        cases hc
    · cases hs
  | deliver =>
    simp only [next] at hs
    split at hs
    · rename_i applyMsg i c _ _ ha
      split at hs
      · refine Option.some.inj hs ▸ .apply _ rfl rfl rfl ?_ (fun i op h => by cases h)
          fun _ h => absurd rfl h
        rw [ha]
        rfl
      · obtain rfl := Option.some.inj hs
        cases hc
    · cases hs
  | finish =>
    simp only [next] at hs
    split at hs
    · rename_i i c hm ha
      simp only [Option.ite_none_right_eq_some, Option.some.injEq] at hs
      obtain ⟨-, rfl⟩ := hs
      exact moves_machine hm hc
    · cases hs
  | lockApply =>
    simp only [next] at hs
    split at hs
    · simp only [Option.ite_none_right_eq_some, Option.some.injEq] at hs
      exact hs.2 ▸ .lockApply _ _ hs.1
    · cases hs
  | execute =>
    simp only [next] at hs
    split at hs
    · rename_i index op ha
      refine Option.some.inj hs ▸ .apply _ rfl rfl rfl ?_ (fun i op h => by cases h) id
      rw [ha]
      rfl
    · cases hs
  | drain =>
    simp only [next] at hs
    split at hs
    · rename_i index op ha
      refine Option.some.inj hs ▸ .apply _ rfl rfl rfl ?_ (fun i op h => ?_) id
      · rw [ha]
        rfl
      · cases h
        exact Function.update_self _ _ _
    · cases hs
  | send =>
    simp only [next] at hs
    split at hs
    · rename_i index op ha
      split at hs
      · refine Option.some.inj hs ▸ .apply _ rfl rfl rfl ?_ (fun i op h => by cases h) id
        rw [ha]
        rfl
      · cases hs
    · cases hs
  | unlockApply =>
    simp only [next] at hs
    split at hs
    · rename_i ha
      exact Option.some.inj hs ▸ .unlockApply ha
    · cases hs
  | start h =>
    simp only [next] at hs
    split at hs
    · rename_i args hx
      refine Option.some.inj hs ▸ .handler h _ _ s.kv (stageOf_eq hx) (by simp) ?_ fun _ h => h
      split_ifs <;> rfl
    · cases hs
  | lock h =>
    simp only [next] at hs
    split at hs
    · rename_i args index hx
      simp only [Option.ite_none_right_eq_some, Option.some.injEq] at hs
      exact hs.2 ▸ .lock h _ _ hs.1 (stageOf_eq hx) (by simp) rfl
    · cases hs
  | lookup h =>
    simp only [next] at hs
    split at hs
    · rename_i args index hx
      exact Option.some.inj hs ▸ .handler h _ _ _ (stageOf_eq hx) (by simp) rfl
        fun i hi => RaftKV.result_lookup hi index
    · cases hs
  | unlock h =>
    simp only [next] at hs
    split at hs
    · rename_i args index hx
      exact Option.some.inj hs ▸ .unlock h _ _ (stageOf_eq hx) rfl rfl
    · cases hs
  | receive h =>
    simp only [next] at hs
    split at hs
    · rename_i args index hx
      split at hs
      · rename_i op kv hr
        exact Option.some.inj hs ▸ .handler h _ _ kv (stageOf_eq hx) (by simp)
          (critical_received _ _) fun i hi => RaftKV.result_receive hi hr
      · cases hs
    · cases hs
  | timeout h =>
    simp only [next] at hs
    split at hs
    · rename_i args index hx
      exact Option.some.inj hs ▸ .handler h _ _ s.kv (stageOf_eq hx) (by simp) rfl fun _ h => h
    · cases hs
  | getLock h =>
    simp only [next] at hs
    split at hs
    · rename_i args₀ args hx
      simp only [Option.ite_none_right_eq_some, Option.some.injEq] at hs
      exact hs.2 ▸ .lock h _ _ hs.1 (stageOf_eq hx) (by simp) rfl
    · cases hs
  | get h =>
    simp only [next] at hs
    split at hs
    · rename_i args₀ args hx
      exact Option.some.inj hs ▸ .handler h _ _ _ (stageOf_eq hx) (by simp) rfl fun _ h => h
    · cases hs
  | getUnlock h =>
    simp only [next] at hs
    split at hs
    · rename_i args reply hx
      exact Option.some.inj hs ▸ .unlock h _ _ (stageOf_eq hx) rfl rfl
    · cases hs

/-! ## What the steps add up to -/

theorem step_eq_some : step e s = some s' ↔ s.crash = none ∧ s.next e = some s' := by
  unfold step
  split <;> simp_all

theorem next_deliver (hs : s.next .deliver = some s') (hc : s'.crash = none) :
    ∃ applyMsg i c op kv, s.msg = some applyMsg ∧ s.raft.applying = some (i, c) ∧
      s.kv.take applyMsg = .ok (op, kv) ∧ s' =
        { s with
          raft := { s.raft with
            applyCh := s.raft.applyCh ++ [applyMsg], applying := some (i + 1, c) }
          msg := none
          kv := kv
          apply := .locking applyMsg.index op } := by
  simp only [next] at hs
  split at hs
  · rename_i applyMsg i c hm ha _
    split at hs
    · rename_i op kv hkv
      exact ⟨applyMsg, i, c, op, kv, hm, ha, hkv, (Option.some.inj hs).symm⟩
    · obtain rfl := Option.some.inj hs
      cases hc
  · cases hs

/-- If nothing comes in between, an entry is read and sent as by `Raft.stateMachine`. -/
theorem stateMachine_of_deliver {s₁ : Process n} (hread : s.next .read = some s₁)
    (hdel : s₁.next .deliver = some s') (hc : s'.crash = none) :
    s.raft.stateMachine = .ok s'.raft := by
  obtain ⟨applyMsg, i, c, op, kv, hm, ha, -, rfl⟩ := next_deliver hdel hc
  simp only [next] at hread
  split at hread
  · rename_i i' c' hm' ha'
    simp only [Option.ite_none_right_eq_some] at hread
    obtain ⟨hle, hread⟩ := hread
    split at hread
    · rename_i e he
      obtain rfl := Option.some.inj hread
      obtain rfl := Option.some.inj hm
      obtain ⟨rfl, rfl⟩ := Prod.mk.inj (Option.some.inj (ha'.symm.trans ha))
      simp only [Raft.stateMachine, ha', if_pos hle, he]
      rfl
    · obtain rfl := Option.some.inj hread
      cases hc
  · cases hread

/-- And `getApply` does with it what `RaftKV.getApply` does. -/
theorem getApply_of_send {applyMsg : ApplyMsg Op} (hm : s.msg = some applyMsg)
    (hs : runs step s [.deliver, .lockApply, .execute, .drain, .send] = some s') :
    s.kv.getApply applyMsg = .ok s'.kv := by
  obtain ⟨_, s₁, hs₀, hdel, hs⟩ := runs_split (t := []) hs
  obtain rfl := Option.some.inj hs₀
  obtain ⟨_, s₂, hs₁, hlock, hs⟩ := runs_split (t := []) hs
  obtain rfl := Option.some.inj hs₁
  obtain ⟨hc, hdel⟩ := step_eq_some.mp hdel
  obtain ⟨hc₁, hlock⟩ := step_eq_some.mp hlock
  obtain ⟨m, i, c, op, kv, hm', -, hkv, rfl⟩ := next_deliver hdel hc₁
  obtain rfl := Option.some.inj (hm.symm.trans hm')
  simp only [next, Option.ite_none_right_eq_some, Option.some.injEq] at hlock
  obtain ⟨-, rfl⟩ := hlock
  have hrun : runs step _ [.execute, .drain, .send] = some s' := hs
  simp [runs, step, next, hc, RaftKV.send_drain] at hrun
  rw [← hrun, RaftKV.getApply_eq_take, hkv]
  rfl

/-! ## Runs -/

/-- The goroutine that is inside has `kv.mu`, the handler that is to be answered waits for it, and
there is room in the channel that `getApply` sends on. -/
structure Inv (s : Process n) : Prop where
  mutex : Guarded s.mu s.inside
  answering : ∀ h reply, s.loop = .answering h reply → s.stageOf h = some .awaiting
  sending : ∀ i op, s.apply = .sending i op → s.kv.result i = some none
  pending : s.Pending

theorem inv_init (me : Fin n) (persister : Option (RaftStateData n Op)) (rnd : ℕ) :
    Inv (init me persister rnd) where
  mutex x := by cases x <;> simp [init, inside, ApplyLoop.critical, stageOf]
  answering h reply hl := by cases hl
  sending i op ha := by cases ha
  pending hm := absurd rfl hm

theorem Inv.mutex_setStage (hinv : Inv s) {stage₀ : Stage} (hst : s.stageOf h = some stage₀)
    (hcrit : stage.critical = stage₀.critical) : Guarded s.mu (s.setStage h stage).inside := by
  refine hinv.mutex.congr fun x => ?_
  rw [inside_setStage hst]
  split_ifs with hx
  · rw [hx, hcrit, inside, hst]
    rfl
  · rfl

theorem Inv.step (hinv : Inv s) (hs : Moves s s') : Inv s' := by
  cases hs with
  | aside _ hl hmu ha hh hkv hp =>
    refine ⟨?_, fun h reply hr => ?_, fun i op hi => ?_, hp hinv.pending⟩
    · rw [hmu]
      exact hinv.mutex.congr (inside_congr (by rw [ha]) hh)
    · rw [stageOf, hh]
      exact hinv.answering h reply (hl ▸ hr)
    · rw [hkv]
      exact hinv.sending i op (ha ▸ hi)
  | spawn args =>
    exact ⟨hinv.mutex.congr (inside_spawn s args),
      fun h reply hl => stageOf_spawn args (hinv.answering h reply hl), hinv.sending,
      hinv.pending⟩
  | command h r reply hst hr =>
    refine ⟨hinv.mutex_setStage hst rfl, fun k reply' hk => ?_, hinv.sending, ?_⟩
    · cases hk
      refine (stageOf_setStage s h .awaiting h).trans ?_
      rw [if_pos rfl, hst]
      rfl
    · exact fun hm => hr ▸ hinv.pending hm
  | done h stage hst hcrit =>
    exact ⟨hinv.mutex_setStage hst hcrit, fun _ _ hk => (by cases hk), hinv.sending, hinv.pending⟩
  | apply _ hl hmu hh hcrit hsend hp =>
    refine ⟨?_, fun h reply hr => ?_, hsend, hp hinv.pending⟩
    · rw [hmu]
      exact hinv.mutex.congr (inside_congr hcrit hh)
    · rw [stageOf, hh]
      exact hinv.answering h reply (hl ▸ hr)
  | lockApply i op hmu =>
    refine ⟨(hmu ▸ hinv.mutex).lock fun x => ?_, hinv.answering, fun _ _ hi => (by cases hi),
      hinv.pending⟩
    cases x <;> rfl
  | unlockApply ha =>
    have hin : s.inside .getApply = true := by
      rw [inside, ha]
      rfl
    refine ⟨hinv.mutex.unlock hin fun x => ?_, hinv.answering, fun _ _ hi => (by cases hi),
      hinv.pending⟩
    cases x <;> rfl
  | handler h stage₀ stage kv hst hne hcrit hres =>
    exact ⟨hinv.mutex_setStage hst hcrit,
      fun k reply hk => stageOf_setStage_of_ne hst hne stage (hinv.answering k reply hk),
      fun i op hi => hres i (hinv.sending i op hi), hinv.pending⟩
  | lock h stage₀ stage hmu hst hne hcrit =>
    refine ⟨(hmu ▸ hinv.mutex).lock fun x => ?_,
      fun k reply hk => stageOf_setStage_of_ne hst hne stage (hinv.answering k reply hk),
      hinv.sending, hinv.pending⟩
    rw [← hcrit]
    exact inside_setStage hst stage x
  | unlock h stage₀ stage hst hcrit₀ hcrit =>
    have hin : s.inside (.handler h) = true := by
      rw [inside, hst]
      exact hcrit₀
    have hne : stage₀ ≠ .awaiting := by
      rintro rfl
      cases hcrit₀
    refine ⟨hinv.mutex.unlock hin fun x => ?_,
      fun k reply hk => stageOf_setStage_of_ne hst hne stage (hinv.answering k reply hk),
      hinv.sending, hinv.pending⟩
    rw [← hcrit]
    exact inside_setStage hst stage x

/-! ## Somebody can go on -/

/-- Whoever has `kv.mu` waits for nobody. -/
theorem Inv.holder_goes_on (hinv : Inv s) {x : Holder} (hx : s.inside x = true) :
    ∃ e : Event n, e.Internal ∧ (s.next e).isSome = true := by
  cases x with
  | getApply =>
    rw [inside] at hx
    cases ha : s.apply with
    | selecting | locking =>
      rw [ha] at hx
      cases hx
    | applying i op => exact ⟨.execute, trivial, by simp [next, ha]⟩
    | draining i op => exact ⟨.drain, trivial, by simp [next, ha]⟩
    | sending i op =>
      exact ⟨.send, trivial, by simp [next, ha, RaftKV.send, hinv.sending i op ha]⟩
    | unlocking => exact ⟨.unlockApply, trivial, by simp [next, ha]⟩
  | handler h =>
    rw [inside, stageOf] at hx
    cases hh : s.handlers[h]? with
    | none =>
      rw [hh] at hx
      cases hx
    | some x =>
      rw [hh] at hx
      obtain ⟨args, stage⟩ := x
      cases stage with
      | looking i => exact ⟨.lookup h, trivial, by simp [next, hh]⟩
      | unlocking i => exact ⟨.unlock h, trivial, by simp [next, hh]⟩
      | getting a => exact ⟨.get h, trivial, by simp [next, hh]⟩
      | getUnlocking r => exact ⟨.getUnlock h, trivial, by simp [next, hh]⟩
      | _ => cases hx

theorem Inv.getApply_goes_on (hinv : Inv s) (ha : s.apply ≠ .selecting) :
    ∃ e : Event n, e.Internal ∧ (s.next e).isSome = true := by
  cases hl : s.apply with
  | selecting => exact absurd hl ha
  | locking i op =>
    cases hmu : s.mu with
    | none => exact ⟨.lockApply, trivial, by simp [next, hl, hmu]⟩
    | some x => exact hinv.holder_goes_on ((hinv.mutex x).mp hmu)
  | applying | draining | sending | unlocking =>
    refine hinv.holder_goes_on (x := .getApply) ?_
    rw [inside, hl]
    rfl

/-- The event loop waits for `stateMachine`, which takes the commit index or is in a batch. -/
theorem Inv.commit_goes_on (hinv : Inv s) (hc : s.raft.commitc ≠ none) :
    ∃ e : Event n, e.Internal ∧ (s.next e).isSome = true := by
  obtain ⟨c, hc⟩ := Option.ne_none_iff_exists'.mp hc
  cases hm : s.msg with
  | none =>
    cases hap : s.raft.applying with
    | none => exact ⟨.commit, trivial, by simp [next, hm, hap, hc]⟩
    | some x =>
      obtain ⟨i, c'⟩ := x
      rcases lt_or_ge c' i with hlt | hle
      · exact ⟨.finish, trivial, by simp [next, hm, hap, hlt]⟩
      · refine ⟨.read, trivial, ?_⟩
        simp only [next, hm, hap, if_pos hle]
        split <;> rfl
  | some applyMsg =>
    by_cases ha : s.apply = .selecting
    · obtain ⟨x, hap⟩ := Option.ne_none_iff_exists'.mp (hinv.pending (by simp [hm]))
      refine ⟨.deliver, trivial, ?_⟩
      simp only [next, hm, hap, ha]
      split <;> rfl
    · exact hinv.getApply_goes_on ha

theorem Inv.answer_goes_on (hinv : Inv s) {h : ℕ} {reply : Raft.StartReply}
    (hl : s.loop = .answering h reply) : ∃ e : Event n, e.Internal ∧ (s.next e).isSome = true := by
  obtain ⟨⟨args, stage⟩, hh, rfl⟩ := Option.map_eq_some_iff.mp (hinv.answering h reply hl)
  exact ⟨.done, trivial, by simp [next, hl, hh]⟩

theorem runs_inv {me : Fin n} {persister : Option (RaftStateData n Op)} {rnd : ℕ}
    {t : List (Event n)} (h : runs step (init me persister rnd) t = some s)
    (hc : s.crash = none) : Inv s := by
  refine runs_induction (P := fun _ s => s.crash = none → Inv s)
    (fun _ => inv_init me persister rnd) (fun t s₁ e s₂ _ hP hstep hc => ?_) h hc
  obtain ⟨hc₁, hnext⟩ := step_eq_some.mp hstep
  exact (hP hc₁).step (next_moves hnext hc)

/-- In every state that a server can get to, whatever its disk, the messages, the ticks and the
requests were: if the event loop is at the send on `commitc` or on the `done` of a `Start`, or
`getApply` is at `kv.mu.Lock` or at the send of a result, then some goroutine can go on, without a
timeout and without anything from outside. The channel that `getApply` sends a result on is there,
and is empty. -/
theorem no_circular_wait {me : Fin n} {persister : Option (RaftStateData n Op)} {rnd : ℕ}
    {t : List (Event n)} (h : runs step (init me persister rnd) t = some s)
    (hc : s.crash = none) :
    (s.raft.commitc ≠ none ∨ (∃ h reply, s.loop = .answering h reply) ∨
        (∃ index op, s.apply = .locking index op) ∨ (∃ index op, s.apply = .sending index op) →
      ∃ e : Event n, e.Internal ∧ (step e s).isSome = true) ∧
    ∀ index op, s.apply = .sending index op → s.kv.result index = some none := by
  have hinv := runs_inv h hc
  refine ⟨fun hb => ?_, hinv.sending⟩
  simp only [step, hc]
  rcases hb with hb | ⟨k, reply, hl⟩ | ⟨i, op, ha⟩ | ⟨i, op, ha⟩
  · exact hinv.commit_goes_on hb
  · exact hinv.answer_goes_on hl
  · exact hinv.getApply_goes_on (by simp [ha])
  · exact hinv.getApply_goes_on (by simp [ha])

end Process

/-! ## Two waits at once -/

def setX : Args := .putAppend ⟨"x", "1", .put, 1, 1⟩

/-- A server is elected and gets two requests. When it has committed the first, its event loop has
an answer for the second, and `getApply` waits for the handler of the first. -/
def contended (me peer : Fin 3) : List (Process.Event 3) :=
  List.replicate 10 (.tick 0) ++
    [.recv 0 (.msgVoteResp peer me ⟨2, me, 0, 1⟩ ⟨2, true⟩), .spawn setX, .spawn setX, .start 0,
      .start 1, .command 0, .done, .lock 0,
      .recv 0 (.msgAppResp peer me ⟨2, me, 0, 0, 1, [⟨2, some setX.entry, 1⟩]⟩
        { term := 2, success := true, nextIndex := 2 }),
      .commit, .read, .deliver, .command 1]

theorem Process.contended_goes_on :
    ∃ s, runs step (init 0 none 0) (contended 0 1) = some s ∧ s.mu = some (.handler 0) ∧
      s.apply = .locking 1 setX.entry ∧ ∃ e : Event 3, e.Internal ∧ (step e s).isSome = true := by
  have hrun : (runs step (init 0 none 0) (contended 0 1)).map (fun s => (s.mu, s.apply, s.crash)) =
      some (some (.handler 0), .locking 1 setX.entry, none) := by decide +kernel
  obtain ⟨s, hs, heq⟩ := Option.map_eq_some_iff.mp hrun
  simp only [Prod.mk.injEq] at heq
  obtain ⟨hmu, ha, hc⟩ := heq
  exact ⟨s, hs, hmu, ha, (no_circular_wait hs hc).1 (.inr (.inr (.inl ⟨1, setX.entry, ha⟩)))⟩

end DistSystem.KV
