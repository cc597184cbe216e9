import DistSystem.Proofs.KVChannels
import DistSystem.Proofs.KVRaft

/-!
# Critical sections are atomic

The goroutines of a server do, step by step, what the server of the service does in one action for
each critical section of `kv.mu`. A `Get` takes effect where it unlocks, and a message from
`applyCh` where its channel has been emptied: what was done before that no other goroutine can see
(`Atomic`).
-/

namespace DistSystem.KV

variable {n : ℕ}

namespace RaftKV

variable (kv : RaftKV)

/-- The store when `getApply` is where it is, if its message counts from the `drain` on. -/
def early : ApplyLoop → RaftKV
  | .locking i _ => { kv with prevIndex := i }
  | .applying i _ => { kv with prevIndex := i }
  | .draining i op => { kv with prevIndex := i }.apply op
  | .sending i _ => kv.drain i
  | .selecting => kv
  | .unlocking => kv

/-- What `getApply` is at can be gone on with. -/
def Due : ApplyLoop → Prop
  | .locking i _ => ¬ (i > 1 ∧ kv.prevIndex ≠ i - 1)
  | .applying i _ => ¬ (i > 1 ∧ kv.prevIndex ≠ i - 1)
  | .draining i _ => ¬ (i > 1 ∧ kv.prevIndex ≠ i - 1)
  | .sending i op => kv.result i = some (some op)
  | .selecting => True
  | .unlocking => True

/-- The store when a `Get` is before its `Unlock`, if it counts from there on. -/
def read : Option GetArgs → RaftKV
  | none => kv
  | some args => (kv.get args).2

variable {kv}

/-! ## What commutes -/

theorem apply_setResult (kv : RaftKV) (op : Op) (R : ℕ → Option (Option Op)) :
    ({ kv with result := R } : RaftKV).apply op = { kv.apply op with result := R } := by
  have hdup : ({ kv with result := R } : RaftKV).checkDup op = kv.checkDup op := rfl
  unfold apply
  rw [hdup]
  split_ifs
  · rfl
  · rfl

theorem read_setResult (o : Option GetArgs) (R : ℕ → Option (Option Op)) :
    ({ kv with result := R } : RaftKV).read o = { kv.read o with result := R } := by
  cases o with
  | none => rfl
  | some args => rfl

@[simp]
theorem result_read (o : Option GetArgs) : (kv.read o).result = kv.result := by
  cases o with
  | none => rfl
  | some args => rfl

theorem early_setResult {a : ApplyLoop} (ha : ∀ i op, a ≠ .sending i op)
    (R : ℕ → Option (Option Op)) :
    ({ kv with result := R } : RaftKV).early a = { kv.early a with result := R } := by
  cases a with
  | sending i op => exact absurd rfl (ha i op)
  | draining i op => exact apply_setResult { kv with prevIndex := i } op R
  | selecting | locking | applying | unlocking => rfl

theorem result_early {a : ApplyLoop} (ha : ∀ i op, a ≠ .sending i op) :
    (kv.early a).result = kv.result := by
  cases a with
  | sending i op => exact absurd rfl (ha i op)
  | draining i op => exact apply_result _ op
  | selecting | locking | applying | unlocking => rfl

theorem lookup_eq_setResult (kv : RaftKV) (index : ℕ) : kv.lookup index =
    { kv with result := (kv.lookup index).result } := by
  unfold lookup
  split
  · rfl
  · rfl

theorem lookup_congr {kv' : RaftKV} (h : kv'.result = kv.result) (index : ℕ) :
    (kv'.lookup index).result = (kv.lookup index).result := by
  unfold lookup
  rw [h]
  split
  · exact h
  · rfl

theorem receive_eq_some {index : ℕ} {op : Op} {kv' : RaftKV} :
    kv.receive index = some (op, kv') ↔ kv.result index = some (some op) ∧
      kv' = { kv with result := Function.update kv.result index (some none) } := by
  unfold receive
  split
  · rename_i op' hr
    rw [Option.some.injEq, Prod.mk.injEq, hr, Option.some.injEq, Option.some.injEq,
      eq_comm (b := kv')]
  · rename_i hne
    constructor
    · intro h
      cases h
    · rintro ⟨h, -⟩
      exact absurd h (hne op)

end RaftKV

/-! ## Where handlers are -/

/-- Where the handler of the service is, for the handler `h` of a process. A `Get` before its
`Unlock` still has to be done, on a store that is as it was when it was read; under `K` the write to
`ack` does not lower it. -/
def Stands (K : Prop) (loop : EventLoop) (h : ℕ) (kv : RaftKV) (hd : Handler n) : Stage → Prop
  | .starting => hd.phase = .start
  | .proposing => hd.phase = .start
  | .awaiting => ∀ reply, loop = .answering h reply →
      if reply.isLeader then hd.phase = .lookup ∧ hd.index = reply.index.toNat
      else hd.phase = .start
  | .locking i => hd.phase = .lookup ∧ hd.index = i
  | .looking i => hd.phase = .lookup ∧ hd.index = i
  | .unlocking i => hd.phase = .wait ∧ hd.index = i
  | .waiting i => hd.phase = .wait ∧ hd.index = i
  | .getLocking args => hd.phase = .read ∧ hd.args = .get args
  | .getting args => hd.phase = .read ∧ hd.args = .get args
  | .getUnlocking reply => ∃ args, hd.phase = .read ∧ hd.args = .get args ∧
      reply = (kv.get args).1 ∧ (K → ∀ v ∈ kv.ack args.id, v ≤ args.reqId)
  | .returned _ => True

theorem Stands.congr {K : Prop} {loop loop' : EventLoop} {h : ℕ} {kv kv' : RaftKV} {hd : Handler n}
    {stage : Stage} (hs : Stands K loop h kv hd stage)
    (hloop : ∀ reply, loop' = .answering h reply → loop = .answering h reply)
    (hkv : ∀ reply, stage = .getUnlocking reply → kv'.db = kv.db ∧ kv'.ack = kv.ack) :
    Stands K loop' h kv' hd stage := by
  cases stage with
  | awaiting => exact fun reply hr => hs reply (hloop reply hr)
  | getUnlocking reply =>
    obtain ⟨hdb, hack⟩ := hkv reply rfl
    obtain ⟨args, hp, ha, rfl, hle⟩ := hs
    refine ⟨args, hp, ha, ?_, ?_⟩
    · simp only [RaftKV.get, hdb]
    · rwa [hack]
  | starting | proposing | locking | looking | unlocking | waiting | getLocking | getting
  | returned => exact hs

namespace Process

variable {K : Prop} {s s' : Process n} {kv kv' : RaftKV} {f f' : ℕ → Option (Handler n)} {h : ℕ}

/-- The `Get` that is before its `Unlock`. -/
def reading (s : Process n) : Option GetArgs :=
  match s.mu with
  | some (.handler h) =>
    match s.handlers[h]? with
    | some ⟨.get args, .getUnlocking _⟩ => some args
    | _ => none
  | _ => none

/-- Every handler of the process is where its handler of the service is. -/
def Tracks (K : Prop) (s : Process n) (kv : RaftKV) (f : ℕ → Option (Handler n)) : Prop :=
  ∀ h x, s.handlers[h]? = some x →
    ∃ hd, f h = some hd ∧ hd.args = x.args ∧ Stands K s.loop h kv hd x.stage

/-- The process stands for a server of the service with the store `kv` and the handlers `f`. -/
structure Atomic (K : Prop) (s : Process n) (kv : RaftKV) (f : ℕ → Option (Handler n)) : Prop where
  store : s.kv = (kv.early s.apply).read s.reading
  due : kv.Due s.apply
  handlers : Tracks K s kv f

/-- The handler `h` of the service is now `hd`. -/
def Sets (f : ℕ → Option (Handler n)) (h : ℕ) (hd : Handler n) (f' : ℕ → Option (Handler n)) :
    Prop := f' h = some hd ∧ ∀ k ≠ h, f' k = f k

theorem sets_self {hd : Handler n} (hf : f h = some hd) : Sets f h hd f := ⟨hf, fun _ _ => rfl⟩

/-! ## The handlers but for one -/

theorem handlers_setStage {x : Running} (hx : s.handlers[h]? = some x) (stage : Stage) :
    (s.setStage h stage).handlers[h]? = some { x with stage := stage } := by
  simp [Process.setStage, hx]

theorem handlers_setStage_ne {k : ℕ} (hne : h ≠ k) (stage : Stage) :
    (s.setStage h stage).handlers[k]? = s.handlers[k]? := by
  simp [Process.setStage, hne]

theorem Tracks.congr (hT : Tracks K s kv f) (hh : s'.handlers = s.handlers) (hl : s'.loop = s.loop)
    (hdb : kv'.db = kv.db) (hack : kv'.ack = kv.ack) : Tracks K s' kv' f := by
  intro k x hx
  rw [hh] at hx
  obtain ⟨hd, hf, ha, hst⟩ := hT k x hx
  exact ⟨hd, hf, ha, hst.congr (fun _ hr => hl ▸ hr) fun _ _ => ⟨hdb, hack⟩⟩

/-- One handler goes on. If the store changes for readers, nobody else is reading. -/
theorem Tracks.setStage (hT : Tracks K s kv f) {x : Running} (hx : s.handlers[h]? = some x)
    {stage : Stage} (hh : s'.handlers = (s.setStage h stage).handlers)
    (hl : ∀ k reply, k ≠ h → s'.loop = .answering k reply → s.loop = .answering k reply)
    (hkv : kv'.db = kv.db ∧ kv'.ack = kv.ack ∨
      ∀ k reply, k ≠ h → s.stageOf k ≠ some (.getUnlocking reply))
    {hd : Handler n} (hf : Sets f h hd f') (ha : hd.args = x.args)
    (hst : Stands K s'.loop h kv' hd stage) : Tracks K s' kv' f' := by
  intro k y hy
  rw [hh] at hy
  rcases eq_or_ne h k with rfl | hne
  · rw [handlers_setStage hx] at hy
    obtain rfl := Option.some.inj hy
    exact ⟨hd, hf.1, ha, hst⟩
  · rw [handlers_setStage_ne hne] at hy
    obtain ⟨hd', hf', ha', hst'⟩ := hT k y hy
    refine ⟨hd', (hf.2 k hne.symm).trans hf', ha', hst'.congr (fun r hr => hl k r hne.symm hr) ?_⟩
    intro r hr
    refine hkv.resolve_right fun hno => hno k r hne.symm ?_
    rw [stageOf_eq hy, hr]

theorem reading_congr (hmu : s'.mu = s.mu) (hh : s'.handlers = s.handlers) :
    s'.reading = s.reading := by
  unfold reading
  rw [hmu, hh]

theorem reading_eq_none (hmu : ∀ k, s.mu = some (.handler k) →
    ∀ reply, s.stageOf k ≠ some (.getUnlocking reply)) : s.reading = none := by
  unfold reading
  split
  · rename_i k hk
    split
    · rename_i args reply hx
      exact absurd (stageOf_eq hx) (hmu k hk reply)
    · rfl
  · rfl

theorem reading_of_mu_none (hmu : s.mu = none) : s.reading = none := by
  unfold reading
  rw [hmu]

theorem stageOf_setStage_self {x : Running} (hx : s.handlers[h]? = some x) (stage : Stage) :
    (s.setStage h stage).stageOf h = some stage := stageOf_eq (handlers_setStage hx stage)

/-- Only who has the lock reads. -/
theorem reading_of_holder {stage : Stage} (hmu : s.mu = some (.handler h))
    (hst : s.stageOf h = some stage) (hne : ∀ reply, stage ≠ .getUnlocking reply) :
    s.reading = none := by
  refine reading_eq_none fun k hk reply hr => ?_
  rw [hmu] at hk
  cases hk
  rw [hst] at hr
  exact hne reply (Option.some.inj hr)

/-- A step of a handler that is not reading and does not read changes nothing for readers. -/
theorem reading_setStage {stage₀ stage : Stage} (hst : s.stageOf h = some stage₀)
    (h₀ : ∀ reply, stage₀ ≠ .getUnlocking reply) (h₁ : ∀ reply, stage ≠ .getUnlocking reply)
    (hmu : s'.mu = s.mu) (hh : s'.handlers = (s.setStage h stage).handlers) :
    s'.reading = s.reading := by
  have hst' : s'.stageOf h = some stage := by
    have := stageOf_setStage s h stage h
    rw [if_pos rfl, hst] at this
    rwa [stageOf, hh]
  rcases Classical.em (s.mu = some (.handler h)) with hm | hm
  · rw [reading_of_holder hm hst h₀, reading_of_holder (hmu.trans hm) hst' h₁]
  · unfold reading
    rw [hmu]
    split
    · rename_i k hk
      have hne : h ≠ k := by
        rintro rfl
        exact hm hk
      rw [hh, handlers_setStage_ne hne]
    · rfl

/-- Where nobody else has the lock. -/
theorem Inv.stageOf_of_holder (hI : Inv s) {x : Holder} (hx : s.inside x = true) {k : ℕ}
    {stage : Stage} (hk : s.stageOf k = some stage) (hc : stage.critical = true) :
    x = .handler k := by
  have hmu := (hI.mutex x).mpr hx
  have hin : s.inside (.handler k) = true := by
    rw [inside, hk]
    exact hc
  have hmu' := (hI.mutex _).mpr hin
  rw [hmu] at hmu'
  exact Option.some.inj hmu'

/-- While `getApply` has the lock, no handler reads. -/
theorem Inv.reading_of_getApply (hI : Inv s) (ha : s.apply.critical = true) : s.reading = none := by
  refine reading_eq_none fun k hk reply hr => ?_
  have := hI.stageOf_of_holder (x := .getApply) ha hr rfl
  cases this

/-- While a handler has the lock, `getApply` is outside. -/
theorem Inv.apply_of_holder (hI : Inv s) {stage : Stage} (hst : s.stageOf h = some stage)
    (hc : stage.critical = true) : s.apply.critical = false := by
  by_contra ha
  rw [Bool.not_eq_false] at ha
  have := hI.stageOf_of_holder (x := .getApply) ha hst hc
  cases this

/-- While a handler has the lock and does not read, none does. -/
theorem Inv.reading_of_holder (hI : Inv s) {stage : Stage} (hst : s.stageOf h = some stage)
    (hc : stage.critical = true) (hne : ∀ reply, stage ≠ .getUnlocking reply) :
    s.reading = none := by
  refine reading_eq_none fun k _ reply hr => ?_
  have hin : s.inside (.handler h) = true := by
    rw [inside, hst]
    exact hc
  have := hI.stageOf_of_holder hin hr rfl
  cases this
  rw [hst] at hr
  exact hne reply (Option.some.inj hr)

/-! ## One step -/

theorem Atomic.handler (hA : Atomic K s kv f) {x : Running} (hx : s.handlers[h]? = some x) :
    ∃ hd, f h = some hd ∧ hd.args = x.args ∧ Stands K s.loop h kv hd x.stage := hA.handlers h x hx

/-- What concerns neither the store nor the handlers. -/
theorem Atomic.aside (hA : Atomic K s kv f) (hl : s'.loop = s.loop) (hmu : s'.mu = s.mu)
    (ha : s'.apply = s.apply) (hh : s'.handlers = s.handlers) (hkv : s'.kv = s.kv) :
    Atomic K s' kv f := by
  refine ⟨?_, ?_, hA.handlers.congr hh hl rfl rfl⟩
  · rw [hkv, ha, reading_congr hmu hh]
    exact hA.store
  · rw [ha]
    exact hA.due

/-- A step of a handler that the handler of the service does not take. -/
theorem Atomic.stay (hA : Atomic K s kv f) {args : Args} {stage₀ stage : Stage}
    (hx : s.handlers[h]? = some ⟨args, stage₀⟩) (hh : s'.handlers = (s.setStage h stage).handlers)
    (hl : s'.loop = s.loop) (ha : s'.apply = s.apply) (hkv : s'.kv = s.kv)
    (hr : s'.reading = s.reading)
    (hst : ∀ hd : Handler n, Stands K s.loop h kv hd stage₀ → Stands K s.loop h kv hd stage) :
    Atomic K s' kv f := by
  obtain ⟨hd, hf, hargs, hs⟩ := hA.handler hx
  refine ⟨?_, ?_, hA.handlers.setStage hx hh (fun _ _ _ h => hl ▸ h) (.inl ⟨rfl, rfl⟩)
    (sets_self hf) hargs (hl ▸ hst hd hs)⟩
  · rw [hkv, ha, hr]
    exact hA.store
  · rw [ha]
    exact hA.due

theorem Atomic.spawn (hA : Atomic K s kv f) (args : Args) {hd : Handler n}
    (hf : Sets f s.handlers.length hd f') (ha : hd.args = args) (hp : hd.phase = .start) :
    Atomic K { s with handlers := s.handlers ++ [⟨args, .starting⟩] } kv f' := by
  set s' : Process n := { s with handlers := s.handlers ++ [⟨args, .starting⟩] } with hs'
  have hnew : ∀ k x, s'.handlers[k]? = some x →
      s.handlers[k]? = some x ∨ k = s.handlers.length ∧ x = ⟨args, .starting⟩ := by
    intro k x hx
    rcases Nat.lt_trichotomy k s.handlers.length with hlt | rfl | hlt
    · exact .inl (List.getElem?_append_left hlt ▸ hx)
    · rw [hs', List.getElem?_concat_length] at hx
      exact .inr ⟨rfl, (Option.some.inj hx).symm⟩
    · rw [hs', List.getElem?_eq_none (by simpa using Nat.succ_le_of_lt hlt)] at hx
      cases hx
  have hr : s'.reading = s.reading := by
    unfold reading
    rw [show s'.mu = s.mu from rfl]
    split
    · rename_i k hk
      rcases lt_or_ge k s.handlers.length with hlt | hge
      · rw [hs', List.getElem?_append_left hlt]
      · rw [List.getElem?_eq_none hge]
        split
        · rename_i x hx
          rcases hnew k _ hx with hx | ⟨-, hx⟩
          · rw [List.getElem?_eq_none hge] at hx
            cases hx
          · cases hx
        · rfl
    · rfl
  refine ⟨?_, hA.due, fun k x hx => ?_⟩
  · rw [hr]
    exact hA.store
  · rcases hnew k x hx with hx | ⟨rfl, rfl⟩
    · have hne : k ≠ s.handlers.length := (List.getElem?_eq_some_iff.mp hx).1.ne
      rw [hf.2 k hne]
      exact hA.handlers k x hx
    · exact ⟨hd, hf.1, ha, hp⟩

/-- A handler goes on and the store stays, for everyone and for those who read it. -/
theorem Atomic.turn (hA : Atomic K s kv f) {x : Running} {stage₀ stage : Stage}
    (hx : s.handlers[h]? = some x) (hs : x.stage = stage₀)
    (h₀ : ∀ reply, stage₀ ≠ .getUnlocking reply) (h₁ : ∀ reply, stage ≠ .getUnlocking reply)
    (hh : s'.handlers = (s.setStage h stage).handlers)
    (hl : ∀ k r, k ≠ h → s'.loop = .answering k r → s.loop = .answering k r)
    (hmu : s'.mu = s.mu) (hap : s'.apply = s.apply) (hkv : s'.kv = s.kv) {hd : Handler n}
    (hf : Sets f h hd f') (ha : hd.args = x.args) (hst : Stands K s'.loop h kv hd stage) :
    Atomic K s' kv f' := by
  refine ⟨?_, ?_, hA.handlers.setStage hx hh hl (.inl ⟨rfl, rfl⟩) hf ha hst⟩
  · rw [hkv, hap, reading_setStage (stageOf_eq hx) (by rwa [hs]) h₁ hmu hh]
    exact hA.store
  · rw [hap]
    exact hA.due

/-- Between two messages the last index is that of the service. -/
theorem Atomic.prevIndex_eq (hA : Atomic K s kv f) (ha : s.apply = .selecting) :
    s.kv.prevIndex = kv.prevIndex := by
  rw [hA.store, ha]
  cases s.reading with
  | none => rfl
  | some args => rfl

/-- `getApply` takes a message. -/
theorem Atomic.deliver (hA : Atomic K s kv f) {applyMsg : ApplyMsg Op} {op : Op} {kv₁ : RaftKV}
    (ha : s.apply = .selecting) (ht : s.kv.take applyMsg = .ok (op, kv₁)) (hl : s'.loop = s.loop)
    (hmu : s'.mu = s.mu) (hap : s'.apply = .locking applyMsg.index op)
    (hh : s'.handlers = s.handlers) (hkv : s'.kv = kv₁) :
    applyMsg = ⟨applyMsg.index, some op⟩ ∧ Atomic K s' kv f := by
  have hstore := hA.store
  rw [ha] at hstore
  obtain ⟨index, _ | op'⟩ := applyMsg
  · simp [RaftKV.take] at ht
  · unfold RaftKV.take at ht
    simp only at ht
    split_ifs at ht with hdue
    obtain ⟨rfl, rfl⟩ : op' = op ∧ { s.kv with prevIndex := index } = kv₁ := by simpa using ht
    refine ⟨rfl, ?_, ?_, hA.handlers.congr hh hl rfl rfl⟩
    · rw [hkv, hap, reading_congr hmu hh, hstore]
      cases s.reading with
      | none => rfl
      | some args => rfl
    · rw [hA.prevIndex_eq ha] at hdue
      rw [hap]
      exact hdue

/-- `getApply` goes on where it does not concern the others. -/
theorem Atomic.inside (hA : Atomic K s kv f) (hr : s.reading = none) (hr' : s'.reading = none)
    (hh : s'.handlers = s.handlers) (hl : s'.loop = s.loop)
    (hkv : s.kv = kv.early s.apply → s'.kv = kv.early s'.apply)
    (hdue : kv.Due s.apply → kv.Due s'.apply) : Atomic K s' kv f := by
  have hstore := hA.store
  rw [hr] at hstore
  refine ⟨?_, hdue hA.due, hA.handlers.congr hh hl rfl rfl⟩
  rw [hr']
  exact hkv hstore

theorem Atomic.execute (hA : Atomic K s kv f) (hI : Inv s) {i : ℕ} {op : Op}
    (ha : s.apply = .applying i op) :
    Atomic K { s with kv := s.kv.apply op, apply := .draining i op } kv f := by
  have hr := hI.reading_of_getApply (by rw [ha]; rfl)
  refine hA.inside hr hr rfl rfl (fun hkv => ?_) fun hdue => ?_
  · show s.kv.apply op = _
    rw [hkv, ha]
    rfl
  · rw [ha] at hdue
    exact hdue

/-- The message counts as applied. -/
theorem Atomic.drain (hA : Atomic K s kv f) (hI : Inv s) {i : ℕ} {op : Op}
    (ha : s.apply = .draining i op) (hl : s'.loop = s.loop) (hmu : s'.mu = s.mu)
    (hap : s'.apply = .sending i op) (hh : s'.handlers = s.handlers)
    (hkv : s'.kv = s.kv.drain i) :
    ∃ kv', kv.getApply ⟨i, some op⟩ = .ok kv' ∧ Atomic K s' kv' f := by
  have hstore := hA.store
  have hdue := hA.due
  have hr := hI.reading_of_getApply (by rw [ha]; rfl)
  rw [ha, hr] at hstore
  rw [ha] at hdue
  refine ⟨({ kv with prevIndex := i }.apply op).notify i op, ?_, ?_, ?_, ?_⟩
  · unfold RaftKV.getApply
    exact if_neg hdue
  · rw [hkv, hap, reading_congr hmu hh, hr, hstore]
    simp [RaftKV.early, RaftKV.read, RaftKV.drain, RaftKV.notify]
  · rw [hap]
    exact Function.update_self _ _ _
  · intro k x hx
    rw [hh] at hx
    obtain ⟨hd, hf, hargs, hst⟩ := hA.handlers k x hx
    refine ⟨hd, hf, hargs, hst.congr (fun _ h => hl ▸ h) fun reply hreply => ?_⟩
    -- a reader would have the lock
    have := hI.stageOf_of_holder (x := .getApply) (by rw [Process.inside, ha]; rfl) (stageOf_eq hx)
      (by rw [hreply]; rfl)
    cases this

theorem Atomic.send (hA : Atomic K s kv f) (hI : Inv s) {i : ℕ} {op : Op} {kv₁ : RaftKV}
    (ha : s.apply = .sending i op) (hsend : s.kv.send i op = some kv₁) :
    Atomic K { s with kv := kv₁, apply := .unlocking } kv f := by
  have hr := hI.reading_of_getApply (by rw [ha]; rfl)
  have hres : kv.result i = some (some op) := by
    have hdue := hA.due
    rwa [ha] at hdue
  refine hA.inside hr hr rfl rfl (fun hkv => ?_) fun _ => trivial
  rw [hkv, ha] at hsend
  simp only [RaftKV.early, RaftKV.send, RaftKV.drain, Function.update_self, Option.some.injEq,
    Function.update_idem] at hsend
  show kv₁ = kv
  rw [← hsend, ← hres, Function.update_eq_self]

/-- `AppendLog` looks up its channel. -/
theorem Atomic.lookup (hA : Atomic K s kv f) (hI : Inv s) {args : Args} {i : ℕ}
    (hx : s.handlers[h]? = some ⟨args, .looking i⟩)
    (hh : s'.handlers = (s.setStage h (.unlocking i)).handlers) (hl : s'.loop = s.loop)
    (hmu : s'.mu = s.mu) (hap : s'.apply = s.apply) (hkv : s'.kv = s.kv.lookup i) {hd : Handler n}
    (hf : Sets f h hd f') (ha : hd.args = args) (hp : hd.phase = .wait) (hi : hd.index = i) :
    Atomic K s' (kv.lookup i) f' := by
  have hstore := hA.store
  have hdue := hA.due
  have hr := hI.reading_of_holder (stageOf_eq hx) rfl (by simp)
  have hout := hI.apply_of_holder (stageOf_eq hx) rfl
  rw [hr] at hstore
  have hns : ∀ j op, s.apply ≠ .sending j op := by
    intro j op hj
    rw [hj] at hout
    cases hout
  have hlookup : (kv.lookup i).db = kv.db ∧ (kv.lookup i).ack = kv.ack ∧
      (kv.lookup i).prevIndex = kv.prevIndex := by
    rw [RaftKV.lookup_eq_setResult]
    exact ⟨rfl, rfl, rfl⟩
  refine ⟨?_, ?_, hA.handlers.setStage hx hh (fun _ _ _ h => hl ▸ h)
    (.inl ⟨hlookup.1, hlookup.2.1⟩) hf ha ⟨hp, hi⟩⟩
  · rw [hkv, hap, reading_setStage (stageOf_eq hx) (by simp) (by simp) hmu hh, hr]
    have hres : s.kv.result = kv.result := by
      rw [hstore]
      exact RaftKV.result_early hns
    show s.kv.lookup i = (kv.lookup i).early s.apply
    rw [RaftKV.lookup_eq_setResult kv, RaftKV.early_setResult hns,
      RaftKV.lookup_eq_setResult s.kv, RaftKV.lookup_congr hres, hstore]
    rfl
  · rw [hap]
    generalize s.apply = a at hdue hns
    cases a with
    | sending j op => exact absurd rfl (hns j op)
    | selecting | unlocking => trivial
    | locking | applying | draining =>
      unfold RaftKV.Due
      rw [hlookup.2.2]
      exact hdue

/-- `AppendLog` gets an operation from its channel, which is not one that `getApply` is at. -/
theorem Atomic.receive (hA : Atomic K s kv f) {args : Args} {i : ℕ} {op : Op} {kv₁ : RaftKV}
    {stage : Stage} (hx : s.handlers[h]? = some ⟨args, .waiting i⟩)
    (hr : s.kv.receive i = some (op, kv₁)) (hne : ∀ reply, stage ≠ .getUnlocking reply)
    (hh : s'.handlers = (s.setStage h stage).handlers) (hl : s'.loop = s.loop)
    (hmu : s'.mu = s.mu) (hap : s'.apply = s.apply) (hkv : s'.kv = kv₁) :
    ∃ kv', kv.receive i = some (op, kv') ∧ ∀ {hd : Handler n} {f' : ℕ → Option (Handler n)},
      Sets f h hd f' → hd.args = args → Stands K s.loop h kv' hd stage → Atomic K s' kv' f' := by
  have hstore := hA.store
  have hdue := hA.due
  obtain ⟨hres, rfl⟩ := RaftKV.receive_eq_some.mp hr
  have hread := reading_setStage (stageOf_eq hx) (by simp) hne hmu hh
  rcases Classical.em (∀ j op', s.apply ≠ .sending j op') with hns | hns
  · have hkres : s.kv.result = kv.result := by
      rw [hstore, RaftKV.result_read, RaftKV.result_early hns]
    rw [hkres] at hres
    refine ⟨_, RaftKV.receive_eq_some.mpr ⟨hres, rfl⟩, fun hf ha hst => ⟨?_, ?_,
      hA.handlers.setStage hx hh (fun _ _ _ h => hl ▸ h) (.inl ⟨rfl, rfl⟩) hf ha (hl ▸ hst)⟩⟩
    · rw [hkv, hap, hread, RaftKV.early_setResult hns, RaftKV.read_setResult, ← hstore, hkres]
    · rw [hap]
      generalize s.apply = a at hdue hns
      cases a with
      | sending j op' => exact absurd rfl (hns j op')
      | selecting | locking | applying | draining | unlocking => exact hdue
  · push Not at hns
    obtain ⟨j, op', hj⟩ := hns
    rw [hj] at hstore hdue
    have hkres : s.kv.result = Function.update kv.result j (some none) := by
      rw [hstore, RaftKV.result_read]
      rfl
    -- the channel that `getApply` is at is empty
    have hij : i ≠ j := by
      rintro rfl
      rw [hkres, Function.update_self] at hres
      cases hres
    rw [hkres, Function.update_of_ne hij] at hres
    refine ⟨_, RaftKV.receive_eq_some.mpr ⟨hres, rfl⟩, fun hf ha hst => ⟨?_, ?_,
      hA.handlers.setStage hx hh (fun _ _ _ h => hl ▸ h) (.inl ⟨rfl, rfl⟩) hf ha (hl ▸ hst)⟩⟩
    · rw [hkv, hap, hj, hread, hkres, Function.update_comm hij.symm, hstore]
      cases s.reading with
      | none => rfl
      | some args => rfl
    · rw [hap, hj]
      show Function.update kv.result i (some none) j = _
      rw [Function.update_of_ne hij.symm]
      exact hdue

/-- `Get` reads the store and writes to `ack`. -/
theorem Atomic.get (hA : Atomic K s kv f) (hI : Inv s) {args₀ : Args} {args : GetArgs}
    (hx : s.handlers[h]? = some ⟨args₀, .getting args⟩)
    (hkeep : K → ∀ v ∈ s.kv.ack args.id, v ≤ args.reqId)
    (hh : s'.handlers = (s.setStage h (.getUnlocking (s.kv.get args).1)).handlers)
    (hl : s'.loop = s.loop) (hmu : s'.mu = s.mu) (hap : s'.apply = s.apply)
    (hkv : s'.kv = (s.kv.get args).2) : Atomic K s' kv f := by
  obtain ⟨hd, hf, hargs, hp, ha⟩ := hA.handler hx
  have hstore := hA.store
  have hr := hI.reading_of_holder (stageOf_eq hx) rfl (by simp)
  have hout := hI.apply_of_holder (stageOf_eq hx) rfl
  rw [hr] at hstore
  have hsame : s.kv.db = kv.db ∧ s.kv.ack = kv.ack := by
    rw [hstore]
    generalize s.apply = a at hout
    cases a with
    | selecting | locking => exact ⟨rfl, rfl⟩
    | applying | draining | sending | unlocking => cases hout
  have hholds : s.mu = some (.handler h) :=
    (hI.mutex (.handler h)).mpr (by rw [Process.inside, stageOf_eq hx]; rfl)
  obtain rfl : args₀ = .get args := hargs.symm.trans ha
  refine ⟨?_, ?_, hA.handlers.setStage hx hh (fun _ _ _ h => hl ▸ h) (.inl ⟨rfl, rfl⟩)
    (sets_self hf) hargs ⟨args, hp, ha, ?_, ?_⟩⟩
  · have hread : s'.reading = some args := by
      unfold reading
      simp only [hmu, hholds, hh, handlers_setStage hx]
    rw [hread, hkv, hap, hstore]
    rfl
  · rw [hap]
    exact hA.due
  · simp only [RaftKV.get, hsame.1]
  · rw [← hsame.2]
    exact hkeep

/-- `Get` unlocks, and counts as done. -/
theorem Atomic.getUnlock (hA : Atomic K s kv f) (hI : Inv s) {args₀ : Args} {reply : GetReply}
    {stage : Stage} (hx : s.handlers[h]? = some ⟨args₀, .getUnlocking reply⟩)
    (hh : s'.handlers = (s.setStage h stage).handlers) (hl : s'.loop = s.loop)
    (hmu : s'.mu = none) (hap : s'.apply = s.apply) (hkv : s'.kv = s.kv) :
    ∃ args hd, f h = some hd ∧ hd.args = args₀ ∧ hd.phase = .read ∧ args₀ = .get args ∧
      reply = (kv.get args).1 ∧ (K → ∀ v ∈ kv.ack args.id, v ≤ args.reqId) ∧
      ∀ {hd' : Handler n} {f' : ℕ → Option (Handler n)}, Sets f h hd' f' → hd'.args = args₀ →
        Stands K s.loop h (kv.get args).2 hd' stage → Atomic K s' (kv.get args).2 f' := by
  obtain ⟨hd, hf, hargs, args, hp, ha, hreply, hkeep⟩ := hA.handler hx
  obtain rfl : args₀ = .get args := hargs.symm.trans ha
  refine ⟨args, hd, hf, hargs, hp, rfl, hreply, hkeep, fun hf' ha' hst => ?_⟩
  have hstore := hA.store
  have hdue := hA.due
  have hin : s.inside (.handler h) = true := by
    rw [Process.inside, stageOf_eq hx]
    rfl
  have hout := hI.apply_of_holder (stageOf_eq hx) rfl
  have hread : s.reading = some args := by
    unfold reading
    simp only [(hI.mutex (.handler h)).mpr hin, hx]
  rw [hread] at hstore
  refine ⟨?_, ?_, hA.handlers.setStage hx hh (fun _ _ _ h => hl ▸ h)
    (.inr fun k r hne hk => ?_) hf' ha' (hl ▸ hst)⟩
  · have hnone : s'.reading = none := by
      unfold reading
      rw [hmu]
    rw [hnone, hkv, hap, hstore]
    generalize s.apply = a at hout
    cases a with
    | selecting | locking => rfl
    | applying | draining | sending | unlocking => cases hout
  · rw [hap]
    generalize s.apply = a at hout hdue
    cases a with
    | selecting | locking => exact hdue
    | applying | draining | sending | unlocking => cases hout
  · have := hI.stageOf_of_holder hin hk rfl
    cases this
    exact hne rfl

end Process

end DistSystem.KV
