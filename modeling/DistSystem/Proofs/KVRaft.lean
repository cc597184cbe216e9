import DistSystem.Proofs.KVLog
import DistSystem.Proofs.RaftStream

/-!
# The service on the cluster

A run of the key/value service and a run of the Raft cluster that belong together (`RunsOn`): what
handlers give to `Start` is what the cluster starts, and `getApply` takes what its server has sent
on `applyCh`. The cluster then guarantees what the service assumes of Raft, and `getApply` never
finds an index out of order.
-/

namespace DistSystem

/-- The command that is started in this action, and the server it is started at. -/
def Action.command {n : ℕ} {C : Type} : Action n C → Option (Fin n × Option C)
  | .start p command => some (p, command)
  | _ => none

namespace KV

variable {n : ℕ} {s s' : Service n} {a : Action n}

/-- The handler whose `Start` returns in this action, and what it gets. -/
def Service.starting (s : Service n) : Action n → Option (Handler n × Option ℕ)
  | .start h index => (s.handlerAt h .start).map (·, index)
  | _ => none

/-- An action of the service and one of the cluster that go together. -/
def OnCluster (s : Service n) (a : Action n) (c : Cluster n Op) (b : DistSystem.Action n Op) :
    Prop :=
  (∀ x ∈ b.command, ∃ y ∈ s.starting a, y.1.server = x.1 ∧ some y.1.args.entry = x.2 ∧
    ∃ reply ∈ c.startReply x.1 x.2,
      y.2 = if reply.isLeader then some reply.index.toNat else none) ∧
  ∀ x ∈ s.delivery a, (c.nodes x.1).raft.applyCh[(s.nodes x.1).applied.length]? = some x.2

instance (s : Service n) (a : Action n) (c : Cluster n Op) (b : DistSystem.Action n Op) :
    Decidable (OnCluster s a c b) :=
  inferInstanceAs (Decidable ((∀ x ∈ b.command, ∃ y ∈ s.starting a, _) ∧ ∀ x ∈ s.delivery a, _))

/-- The run of the service is on the run of the cluster. -/
def RunsOn (κ : Schedule n) (σ : DistSystem.Schedule n Op) : Prop :=
  ∀ t, OnCluster (κ.run t) (κ.act t) (σ.run t) (σ.act t)

theorem Turn.started {x x' : Node} {hd hd' : Handler n} {h : ℕ} (ht : Turn x hd h a x' hd') :
    hd'.phase ≠ .start := by
  cases ht <;> simp

/-- What was given to `Start` stays so. -/
theorem Step.started (h : Step s a s') {hd : Handler n} (hhd : hd ∈ s.handlers)
    (hp : hd.phase ≠ .start) : ∃ hd' ∈ s'.handlers, hd'.phase ≠ .start ∧ hd'.args = hd.args := by
  cases h with
  | dispatch => exact ⟨hd, List.mem_append_left _ hhd, hp, rfl⟩
  | turn hh hl ht =>
    rename_i k hd₀ hd' x'
    obtain ⟨i, hi⟩ := List.mem_iff_getElem?.1 hhd
    by_cases hki : k = i
    · subst hki
      rw [hh] at hi
      obtain rfl := Option.some.inj hi
      exact ⟨hd', List.mem_set (List.getElem?_eq_some_iff.1 hh).1 _, ht.started, ht.call.2.1⟩
    · exact ⟨hd, List.mem_of_getElem? ((List.getElem?_set_ne hki).trans hi), hp, rfl⟩
  | lose | invoke | call | fail | reply | apply | crash | restart => exact ⟨hd, hhd, hp, rfl⟩

/-- A handler whose `Start` returns has given its operation to `Start`. -/
theorem Service.starting_step {hd : Handler n} {index : Option ℕ}
    (h : s.starting a = some (hd, index)) :
    ∃ hd' ∈ (s.exec a).handlers, hd'.phase ≠ .start ∧ hd'.args = hd.args := by
  cases a with
  | start k i =>
    obtain ⟨hd₀, hat, heq⟩ := Option.map_eq_some_iff.1 h
    cases heq
    have hlt := (List.getElem?_eq_some_iff.1 (Service.handlerAt_eq_some hat).1).1
    cases index with
    | some i =>
      refine ⟨{ hd with index := i, phase := .lookup }, ?_, by simp, rfl⟩
      simp only [Service.exec, hat]
      exact List.mem_set hlt _
    | none =>
      refine ⟨{ hd with phase := .answered hd.args.refused }, ?_, by simp, rfl⟩
      simp only [Service.exec, hat]
      exact List.mem_set hlt _
  | _ => cases h

namespace Schedule

variable {κ : Schedule n} {σ : DistSystem.Schedule n Op}

theorem started_mono {t u : ℕ} (htu : t ≤ u) {hd : Handler n} (hhd : hd ∈ (κ.run t).handlers)
    (hp : hd.phase ≠ .start) :
    ∃ hd' ∈ (κ.run u).handlers, hd'.phase ≠ .start ∧ hd'.args = hd.args := by
  induction u, htu using Nat.le_induction with
  | base => exact ⟨hd, hhd, hp, rfl⟩
  | succ u _ ih =>
    obtain ⟨hd', hhd', hp', ha⟩ := ih
    obtain ⟨hd'', hhd'', hp'', ha'⟩ := (κ.step u).started hhd' hp'
    exact ⟨hd'', hhd'', hp'', ha'.trans ha⟩

/-- The operation that the servers of the cluster apply at place `k`. -/
noncomputable def raftLog (σ : DistSystem.Schedule n Op) (k : ℕ) : Op :=
  (σ.appliedLog k).getD ⟨.get, "", "", 0, 0⟩

/-- The cluster gives the service what it assumes of Raft. -/
theorem fromLog_of_runsOn (h : RunsOn κ σ) : κ.Always (FromLog (raftLog σ)) := by
  rintro t ⟨p, applyMsg⟩ hx
  obtain ⟨hmsg, u, hu, q, -, hact⟩ := σ.applyCh_log ((h t).2 _ hx)
  -- the command was started by a handler
  obtain ⟨⟨hd, index⟩, hstart, -, hentry, -⟩ := (h u).1 (q, _) (by rw [hact]; rfl)
  obtain ⟨hd', hhd', hp', ha'⟩ := Service.starting_step hstart
  obtain ⟨hd'', hhd'', hp'', ha''⟩ := started_mono (show u + 1 ≤ t from hu) hhd' hp'
  have hentry : σ.appliedLog ((κ.run t).nodes p).applied.length = some hd.args.entry :=
    hentry.symm
  have hlog : raftLog σ ((κ.run t).nodes p).applied.length = hd.args.entry := by
    unfold raftLog
    rw [hentry]
    rfl
  refine ⟨?_, hd'', hhd'', hp'', ?_⟩
  · dsimp only at hmsg ⊢
    rw [hlog, hmsg, hentry]
  · rw [hlog, ha'', ha']

end Schedule

/-! ## In order -/

/-- The server has not panicked, and the last index it saw is that of its last entry. -/
structure InOrder (x : Node) : Prop where
  prevIndex : x.kv.prevIndex = x.applied.length
  running : ∀ msg, x.status ≠ .panicked msg

theorem RaftKV.lookup_prevIndex (kv : RaftKV) (index : ℕ) :
    (kv.lookup index).prevIndex = kv.prevIndex := by
  unfold lookup
  split <;> rfl

theorem RaftKV.receive_prevIndex {kv kv' : RaftKV} {index : ℕ} {op : Op}
    (h : kv.receive index = some (op, kv')) : kv'.prevIndex = kv.prevIndex := by
  unfold receive at h
  split at h
  · cases h
    rfl
  · cases h

theorem RaftKV.apply_prevIndex (kv : RaftKV) (op : Op) :
    (kv.apply op).prevIndex = kv.prevIndex := by
  unfold apply
  split_ifs <;> rfl

/-- Handlers leave the order of what is applied alone. -/
theorem Turn.inOrder {x x' : Node} {hd hd' : Handler n} {h : ℕ} (ht : Turn x hd h a x' hd')
    (hx : InOrder x) : InOrder x' := by
  cases ht with
  | start | refuse => exact hx
  | lookup => exact ⟨(RaftKV.lookup_prevIndex _ _).trans hx.prevIndex, hx.running⟩
  | mismatch _ hr | get _ _ hr | putAppend _ _ hr =>
    exact ⟨(RaftKV.receive_prevIndex hr).trans hx.prevIndex, hx.running⟩
  | read => exact ⟨hx.prevIndex, hx.running⟩

/-- The next message of the log is taken. -/
theorem InOrder.getApply {x : Node} (hx : InOrder x) (op : Op) :
    InOrder (x.getApply ⟨x.applied.length + 1, some op⟩) := by
  have hok : x.kv.getApply ⟨x.applied.length + 1, some op⟩ =
      .ok (({ x.kv with prevIndex := x.applied.length + 1 }.apply op).notify
        (x.applied.length + 1) op) :=
    if_neg fun h => h.2 (by simpa using hx.prevIndex)
  unfold Node.getApply
  rw [hok]
  refine ⟨?_, hx.running⟩
  simp only [Option.map_some, Option.toList_some, List.length_append, List.length_singleton]
  exact RaftKV.apply_prevIndex _ _

theorem Step.inOrder {log : ℕ → Op} (h : Step s a s') (hlog : FromLog log s a)
    (hs : ∀ p, InOrder (s.nodes p)) (p : Fin n) : InOrder (s'.nodes p) := by
  have hset : ∀ {q : Fin n} {x : Node}, InOrder x → InOrder ((s.setNode q x).nodes p) := by
    intro q x hx
    by_cases hp : p = q
    · subst hp
      simpa [Service.setNode] using hx
    · simpa [Service.setNode, Function.update_of_ne hp] using hs p
  cases h with
  | lose | invoke | call | fail | dispatch | reply => exact hs p
  | turn hh hl ht => exact hset (ht.inOrder (hs _))
  | @apply q applyMsg hr =>
    obtain ⟨hmsg, -⟩ := hlog (q, applyMsg) (if_pos hr)
    rw [show applyMsg = ⟨(s.nodes q).applied.length + 1, _⟩ from hmsg]
    exact hset ((hs q).getApply _)
  | crash q => exact hset ⟨(hs q).prevIndex, by simp⟩
  | restart => exact hset ⟨rfl, by simp⟩

theorem Schedule.inOrder {κ : Schedule n} {log : ℕ → Op} (hlog : κ.Always (FromLog log)) :
    ∀ t p, InOrder (κ.node t p)
  | 0, p => ⟨rfl, by simp [node, run]⟩
  | t + 1, p => (κ.step t).inOrder (hlog t) (inOrder hlog t) p

/-- One incarnation of a server sends on `applyCh` the committed entries of its log, with the
indices 1, 2 and so on; and no server of the service on it ever panics over an index. -/
theorem apply_in_order (n : ℕ) :
    (∀ (C : Type) (σ : DistSystem.Schedule n C) (t : ℕ) (p : Fin n),
      (∀ k m, (σ.raft t p).applyCh[k]? = some m → m.index = k + 1 ∧
        m.index ≤ (σ.raft t p).commitIndex ∧
        ∃ e, (σ.raft t p).log[m.index]? = some e ∧ e.command = m.command) ∧
      ∀ u, t ≤ u → ((σ.run t).nodes p).incarnation = ((σ.run u).nodes p).incarnation →
        (σ.raft t p).applyCh <+: (σ.raft u p).applyCh) ∧
    ∀ (κ : Schedule n) (σ : DistSystem.Schedule n Op), RunsOn κ σ →
      ∀ t p msg, (κ.node t p).status ≠ .panicked msg :=
  ⟨fun _ σ t p => σ.stream t p,
    fun _ _ h t p => (Schedule.inOrder (Schedule.fromLog_of_runsOn h) t p).running⟩

/-- Three servers elect one, which gets a put from a handler, commits and applies it. -/
def putCluster : List (DistSystem.Action 3 Op) :=
  List.flatten [ticks s₀ 10, [.deliver 0 0, .deliver 1 0,
    .start s₀ (some ⟨.put, "k", "v", 0, 0⟩), .deliver 3 0, .deliver 4 0, .stateMachine s₀,
    .stateMachine s₀, .idle, .idle, .idle]]

/-- The service meanwhile, until the put has returned to its caller. -/
def putService : List (Action 3) :=
  List.flatten [[.invoke 0 (.put "k" "v"), .call 0, .dispatch 0], List.replicate 9 .idle,
    [.start 0 (some 1), .lookup 0, .idle, .idle, .idle, .apply s₀ ⟨1, some ⟨.put, "k", "v", 0, 0⟩⟩,
      .receive 0, .reply 0]]

theorem putService_runsOn : RunsOn (.ofList putService) (.ofList putCluster) := by
  intro t
  have hrun : ∀ t < 20, OnCluster ((Schedule.ofList putService).run t) (putService.getD t .idle)
      ((DistSystem.Schedule.ofList putCluster).run t) (putCluster.getD t .idle) := by
    decide +kernel
  rcases Nat.lt_or_ge t 20 with ht | ht
  · exact hrun t ht
  · have hact : (Schedule.ofList putService).act t = .idle :=
      (List.getD_eq_getElem?_getD).trans (by rw [List.getElem?_eq_none (by exact ht)]; rfl)
    have hact' : (DistSystem.Schedule.ofList putCluster).act t = .idle :=
      (List.getD_eq_getElem?_getD).trans (by rw [List.getElem?_eq_none (by exact ht)]; rfl)
    rw [hact, hact']
    exact ⟨nofun, nofun⟩

example : ((Schedule.ofList putService).run 20).calls.map (·.returned) = [true] := by
  decide +kernel

theorem apply_in_order_put :
    RunsOn (.ofList putService) (.ofList putCluster) ∧
      (((Schedule.ofList putService).node 18 s₀).applied.length = 1 ∧
        ∀ t p msg, ((Schedule.ofList putService).node t p).status ≠ .panicked msg) :=
  ⟨putService_runsOn, by decide +kernel, (apply_in_order 3).2 _ _ putService_runsOn⟩

end KV

end DistSystem
