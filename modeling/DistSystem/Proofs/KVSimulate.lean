import DistSystem.Proofs.KVDeploy
import DistSystem.Proofs.KVLinear

/-!
# One event of a process

For each event of a process that runs, the actions of the service and of the cluster that it stands
for are possible, go together, and lead to what stands for the process after the event
(`Deployment.Matches.run`).
-/

namespace DistSystem

/-- A command never ends a server. -/
theorem Schedule.handleStart_ok {n : ℕ} {C : Type} (σ : Schedule n C) (t : ℕ) (p : Fin n)
    (command : Option C) :
    ∃ r msgs reply, (σ.raft t p).handleStart command = .ok (r, msgs, reply) := by
  match n with
  | 0 => exact p.elim0
  | 1 =>
    obtain rfl : p = 0 := Subsingleton.elim _ _
    obtain ⟨r, reply, h, -⟩ := handleStart_single (σ.singleCluster t).ok command
    exact ⟨r, [], reply, h⟩
  | n + 2 =>
    have h := σ.clusterOk (by omega) t
    obtain ⟨r, msgs, reply, heq, -⟩ := handleStart_handled (h.abs p) (h.ok p) command
    exact ⟨r, msgs, reply, heq⟩

theorem Raft.getElem?_of_entry {n : ℕ} {C : Type} {r : Raft n C} {i : ℕ} {e : Log C}
    (h : r.entry i = .ok e) : r.log[i]? = some e := by
  unfold Raft.entry at h
  split at h
  · rename_i e' he
    cases h
    exact he
  · cases h

/-- A server that applies is not alone. -/
theorem Schedule.two_le_of_applying {n : ℕ} {C : Type} (σ : Schedule n C) {t : ℕ} {p : Fin n}
    (h : (σ.raft t p).applying ≠ none) : 2 ≤ n := by
  match n with
  | 0 => exact p.elim0
  | 1 =>
    obtain rfl : p = 0 := Subsingleton.elim _ _
    exact absurd (σ.singleCluster t).ok.applying h
  | n + 2 => omega

namespace KV

variable {n : ℕ} {K : Prop} {σ : DistSystem.Schedule n Op} {u : ℕ} {S S' : Service n}
  {p : Fin n} {s : Deployment n} {x : Host n} {y : Process n} {e : Process.Event n} {h : ℕ}

/-! ## Actions that go together -/

/-- The actions go together, and under `K` no `Get` lowers `ack`. -/
def Fits (K : Prop) (S : Service n) (a : Action n) (c : Cluster n Op)
    (b : DistSystem.Action n Op) : Prop := OnCluster S a c b ∧ (K → KeepsAck S a)

theorem fits_of_quiet {a : Action n} {c : Cluster n Op} {b : DistSystem.Action n Op}
    (hb : b.command = none) (hd : S.delivery a = none) (hr : S.reading a = none) :
    Fits K S a c b := by
  refine ⟨⟨fun x hx => ?_, fun x hx => ?_⟩, fun _ x hx => ?_⟩
  · rw [hb] at hx
    cases hx
  · rw [hd] at hx
    cases hx
  · rw [hr] at hx
    cases hx

theorem fits_ends {c : Cluster n Op} {b : DistSystem.Action n Op} (hb : b.command = none) :
    Fits K S (Host.ends p y) c b := by
  unfold Host.ends
  split_ifs
  · exact fits_of_quiet hb rfl rfl
  · exact fits_of_quiet hb rfl rfl

theorem turns_ends (S : Service n) (p : Fin n) (y : Process n) :
    Turns S (S.exec (Host.ends p y)) p ∧
      (S.exec (Host.ends p y)).responses = S.responses ∧
      (y.crash = none → S.exec (Host.ends p y) = S) := by
  unfold Host.ends
  split_ifs with hc
  · exact ⟨turns_refl S p, rfl, fun _ => rfl⟩
  · refine ⟨⟨fun q hq => Function.update_of_ne hq _ _, ?_, rfl, rfl, rfl, rfl,
      fun _ hd hk => ⟨hd, hk, rfl, rfl, rfl, rfl⟩, fun q _ _ _ hk _ => hk⟩, rfl,
      fun h => absurd h hc⟩
    simp [Service.exec, Service.setNode]

theorem turns_turned {k : ℕ} {hd hd' : Handler n} {z : Node} (hk : S.handlers[k]? = some hd)
    (hcall : hd'.call = hd.call) (hatt : hd'.attempt = hd.attempt)
    (hserver : hd'.server = hd.server) (hinc : hd'.incarnation = hd.incarnation)
    (hp : hd.server = p) (hz : z.incarnation = (S.nodes p).incarnation) :
    Turns S (S.turned k hd' z) p := by
  have hp' : hd'.server = p := hserver.trans hp
  have hlt := (List.getElem?_eq_some_iff.mp hk).1
  refine ⟨fun q hq => ?_, ?_, rfl, rfl, rfl, by simp [Service.turned, Service.setHandler,
    Service.setNode], fun j hd₁ hj => ?_, fun q hq j hd₁ hj hs => ?_⟩
  · rw [← hp'] at hq
    exact Function.update_of_ne hq _ _
  · simp [Service.turned, Service.setHandler, Service.setNode, hp', hz]
  · rcases eq_or_ne k j with rfl | hne
    · obtain rfl := Option.some.inj (hk.symm.trans hj)
      exact ⟨hd', List.getElem?_set_self hlt, hcall, hatt, hserver, hinc⟩
    · exact ⟨hd₁, (List.getElem?_set_ne hne).trans hj, rfl, rfl, rfl, rfl⟩
  · refine (List.getElem?_set_ne ?_).trans hj
    rintro rfl
    obtain rfl := Option.some.inj (hk.symm.trans hj)
    exact hq (hs.symm.trans hp)

/-! ## Slots -/

/-- The handler `h` of the process, with its request and the handler of the service. -/
structure Slot (K : Prop) (S : Service n) (p : Fin n) (x : Host n) (h : ℕ) (r : Running)
    (task : Task) (hd : Handler n) : Prop where
  taken : x.tasks[h]? = some task
  id : x.taskId h = task.id
  handler : S.handlers[task.id]? = some hd
  args : hd.args = r.args
  stands : Stands K x.process.loop h (S.nodes p).kv hd r.stage
  call : hd.call = task.call
  attempt : hd.attempt = task.attempt
  server : hd.server = p
  live : S.Live hd

theorem Host.Matches.slot (hm : x.Matches K σ u S p) (ha : x.Alive) {r : Running}
    (hx : x.process.handlers[h]? = some r) : ∃ task hd, Slot K S p x h r task hd := by
  have hl := hm.lives ha
  have hlt := (List.getElem?_eq_some_iff.mp hx).1
  rw [← hl.length] at hlt
  have ht := List.getElem?_eq_getElem hlt
  obtain ⟨hd, hk, h₁, h₂, h₃, h₄⟩ := hl.own _ (List.getElem_mem hlt)
  obtain ⟨hd', hf, hargs, hst⟩ := hl.atomic.handler hx
  have hhd : hd' = hd := by
    unfold Host.handlers at hf
    rw [ht, Option.bind_some, hk] at hf
    exact (Option.some.inj hf).symm
  subst hhd
  refine ⟨x.tasks[h], hd', ht, ?_, hk, hargs, hst, h₁, h₂, h₃, ?_, ?_⟩
  · simp [Host.taskId, ht]
  · rw [h₃]
    exact hl.service
  · rw [h₃, h₄]
    exact hm.service

theorem Slot.sets {r : Running} {task : Task} {hd : Handler n} (hs : Slot K S p x h r task hd)
    (hnd : (x.tasks.map Task.id).Nodup) (hd' : Handler n) :
    Process.Sets (x.handlers S.handlers) h hd' (x.handlers (S.handlers.set task.id hd')) := by
  have hlt := (List.getElem?_eq_some_iff.mp hs.handler).1
  refine ⟨?_, fun k hk => ?_⟩
  · unfold Host.handlers
    rw [hs.taken, Option.bind_some, List.getElem?_set_self hlt]
  · unfold Host.handlers
    cases ht : x.tasks[k]? with
    | none => rfl
    | some task' =>
      rw [Option.bind_some, Option.bind_some, List.getElem?_set_ne]
      intro heq
      obtain ⟨hlt₁, h₁⟩ := List.getElem?_eq_some_iff.mp hs.taken
      obtain ⟨hlt₂, h₂⟩ := List.getElem?_eq_some_iff.mp ht
      have hlt₁' : h < (x.tasks.map Task.id).length := by rwa [List.length_map]
      have hlt₂' : k < (x.tasks.map Task.id).length := by rwa [List.length_map]
      have hids : (x.tasks.map Task.id)[k] = (x.tasks.map Task.id)[h] := by simp [h₁, h₂, heq]
      exact hk (hnd.getElem_inj_iff.mp hids)

theorem answers_of_stage {args : Args} {stage : Stage} (he : x.process.caller e = some h)
    (hy : y.handlers[h]? = some ⟨args, stage⟩) (hs : ∀ reply, stage ≠ .returned reply) :
    x.answers e y = [] := by
  unfold Host.answers
  simp only [he, hy]
  split
  · rename_i heq _
    cases heq
    exact absurd rfl (hs _)
  · rfl

theorem Slot.answers {r : Running} {task : Task} {hd hd' : Handler n}
    (hs : Slot K S p x h r task hd) {reply : Reply} {args : Args}
    (he : x.process.caller e = some h) (hy : y.handlers[h]? = some ⟨args, .returned reply⟩)
    (hd₁ : hd'.call = hd.call) (hd₂ : hd'.attempt = hd.attempt)
    (hd₃ : hd'.phase = .answered reply) : x.answers e y = hd'.response := by
  unfold Host.answers Handler.response
  simp only [he, hy, hs.taken, hd₁, hd₂, hd₃, hs.call, hs.attempt]

/-- What a handler goes on with is an answer in the process and in the service, or in neither. -/
theorem Slot.answers_received {r : Running} {task : Task} {hd : Handler n}
    (hs : Slot K S p x h r task hd) {op : Op} (he : x.process.caller e = some h)
    (hy : y.handlers[h]? = some ⟨r.args, Process.received r.args op⟩) :
    x.answers e y = ({ hd with phase := hd.args.receiving op } : Handler n).response := by
  have hargs := hs.args
  obtain ⟨args, stage⟩ := r
  simp only at hargs hy
  by_cases hop : op = args.entry
  · cases args with
    | get args =>
      rw [show Process.received (.get args) op = .getLocking args from if_pos hop] at hy
      rw [answers_of_stage he hy (by simp)]
      simp [Handler.response, Args.receiving, hargs, hop, Args.accepted]
    | putAppend args =>
      rw [show Process.received (.putAppend args) op = .returned (.putAppend ⟨false, some .ok⟩)
        from if_pos hop] at hy
      refine hs.answers he hy rfl rfl ?_
      simp [Args.receiving, hargs, hop, Args.accepted]
  · rw [show Process.received args op = .returned args.refused from if_neg hop] at hy
    refine hs.answers he hy rfl rfl ?_
    simp [Args.receiving, hargs, hop]

/-! ## Events of several kinds -/

/-- The actions that an event of the process stands for are possible and lead to what stands for
the process after it. -/
def Simulated (K : Prop) (σ : DistSystem.Schedule n Op) (u : ℕ) (S : Service n) (s : Deployment n)
    (p : Fin n) (e : Process.Event n) (y : Process n) : Prop :=
  Fits K S ((s.hosts p).image p y e).1 (σ.run u) ((s.hosts p).image p y e).2 ∧
    (σ.act u = ((s.hosts p).image p y e).2 →
      (s.ran p e y).Matches K σ (u + 1) (S.exec ((s.hosts p).image p y e).1))

theorem run_idle (hact : σ.act u = .idle) : σ.run (u + 1) = σ.run u := by
  show (σ.run u).exec (σ.act u) = _
  rw [hact]
  rfl

theorem handled_eq_ok {z : Go n Op (Raft n Op × List (Message n Op))}
    (hc : (x.process.handled z).crash = none) : ∃ r msgs, z = .ok (r, msgs) := by
  rcases z with e | ⟨r, msgs⟩
  · cases hc
  · exact ⟨r, msgs, rfl⟩

/-- The event loop goes on in a process that runs. -/
theorem Host.Lives.handled (hl : x.Lives K σ u S p) {r : Raft n Op}
    (hr : SameApplier x.process.raft r) (hinv : ({ x.process with raft := r } : Process n).Inv)
    (hcl : ((σ.run (u + 1)).nodes p).status = .running) :
    ({ x with process := { x.process with raft := r } } : Host n).Lives K σ (u + 1) S p := by
  refine hl.step (turns_refl S p) hcl hl.service hinv rfl (hl.atomic.aside rfl rfl rfl rfl rfl) ?_
    fun m hm => (hl.msg m hm).mono (Nat.le_succ u) hr.applying
  rw [hr.applyCh]
  exact hl.stream

/-! ## `stateMachine` -/

/-- The server that a step of `stateMachine` leaves. -/
def reached : Go n Op (Raft n Op) → Raft n Op
  | .ok r => r
  | .error e => e.raft

theorem exec_stateMachine {c : Cluster n Op} (hc : (c.nodes p).status = .running)
    {z : Go n Op (Raft n Op)} (hz : (c.nodes p).raft.stateMachine = z) :
    AtServer c (c.exec (.stateMachine p)) p (reached z) ∧
      (c.exec (.stateMachine p)).net = c.net ∧
      (∀ r, z = .ok r → ((c.exec (.stateMachine p)).nodes p).status = .running) := by
  subst hz
  simp only [Cluster.exec, if_pos hc]
  cases (c.nodes p).raft.stateMachine with
  | ok r =>
    refine ⟨atServer_setNode c rfl, rfl, fun _ _ => ?_⟩
    simpa [Cluster.setNode] using hc
  | error e =>
    refine ⟨atServer_setNode c rfl, rfl, fun r hr => ?_⟩
    cases hr

theorem machine_raft (s : Process n) (z : Go n Op (Raft n Op)) :
    (s.machine z).raft = reached z := by
  cases z with
  | ok r => rfl
  | error e => rfl

theorem machine_eq_ok {z : Go n Op (Raft n Op)} (hc : (x.process.machine z).crash = none) :
    ∃ r, z = .ok r := by
  cases z with
  | ok r => exact ⟨r, rfl⟩
  | error e => cases hc

/-- Between its batches, and at the end of one, `stateMachine` sends nothing. -/
theorem stateMachine_applyCh {r r' : Raft n Op}
    (h : ∀ i c, r.applying = some (i, c) → c < i) (hr : r.stateMachine = .ok r') :
    r'.applyCh = r.applyCh := by
  unfold Raft.stateMachine at hr
  split at hr
  · split at hr
    · cases hr
      rfl
    · simp only at hr
      split_ifs at hr <;> cases hr <;> rfl
  · rename_i i c hi
    rw [if_neg (Nat.not_le.mpr (h i c hi))] at hr
    cases hr
    rfl

/-- What was read is still there. -/
theorem ReadAt.stateMachine {m : ApplyMsg Op} {i c : ℕ} (h : ReadAt σ u p (σ.raft u p) m)
    (hi : (σ.raft u p).applying = some (i, c)) : (σ.raft u p).stateMachine = .ok
      { σ.raft u p with
        applyCh := (σ.raft u p).applyCh ++ [m], applying := some (i + 1, c) } := by
  obtain ⟨i', c', hi', hic, w, hw, hwi, e, he, rfl⟩ := h
  obtain ⟨rfl, rfl⟩ := Prod.mk.inj (Option.some.inj (hi.symm.trans hi'))
  have h2 : 2 ≤ n := σ.two_le_of_applying (by rw [hi]; simp)
  have hcommit := (σ.raftOk h2 u p).applier.applying i c hi
  have hagree : (σ.raft w p).log[i]? = (σ.raft u p).log[i]? :=
    (σ.isRun h2 u).committed_agree hw le_rfl (v := p) (w := p) hwi (hic.trans hcommit)
  have hentry := Raft.entry_of_getElem? (hagree.symm.trans he)
  simp only [Raft.stateMachine, hi, if_pos hic, hentry]
  rfl

namespace Deployment.Matches

variable (hm : s.Matches K σ u S) (ha : (s.hosts p).Alive)

include hm ha

/-- An event that is nothing for the cluster and for the service. -/
theorem stay (himage : (s.hosts p).image p y e = (.idle, .idle))
    (hraft : y.raft = (s.hosts p).process.raft) (hinv : y.Inv)
    (hlen : y.handlers.length = (s.hosts p).process.handlers.length)
    (hA : y.Atomic K (S.nodes p).kv ((s.hosts p).handlers S.handlers))
    (hst : Streams y.raft.applyCh (S.nodes p).applied.length y.apply)
    (hmsg : ∀ m, y.msg = some m → ReadAt σ u p y.raft m)
    (hsent : (s.hosts p).process.sent e = []) (hans : (s.hosts p).answers e y = []) :
    Simulated K σ u S s p e y := by
  have hl := (hm.hosts p).lives ha
  unfold Simulated
  rw [himage]
  refine ⟨fits_of_quiet rfl rfl rfl, fun hact => ?_⟩
  have hrun := run_idle hact
  have hAt : AtServer (σ.run u) (σ.run (u + 1)) p y.raft := by
    rw [hrun, hraft, ← (hm.hosts p).raft]
    exact atServer_refl _ p
  refine hm.ran hAt ?_ (turns_refl S p) ?_ fun _ =>
    hl.step (turns_refl S p) (by rw [hrun]; exact hl.cluster) hl.service hinv hlen hA hst
      fun m hy => (hmsg m hy).mono (Nat.le_succ u) rfl
  · rw [hrun, hm.net, hsent, List.map_nil, List.append_nil]
  · rw [hans, List.append_nil]
    rfl

/-- An event in which a handler of the service takes its turn. -/
theorem turn {a : Action n} {b : DistSystem.Action n Op} {r : Running} {task : Task}
    {hd hd' : Handler n} {z : Node} (himage : (s.hosts p).image p y e = (a, b))
    (hs : Slot K S p (s.hosts p) h r task hd) (hfits : Fits K S a (σ.run u) b)
    (hexec : S.exec a = S.turned task.id hd' z) (hd₁ : hd'.call = hd.call)
    (hd₂ : hd'.attempt = hd.attempt) (hd₃ : hd'.server = hd.server)
    (hd₄ : hd'.incarnation = hd.incarnation) (hz₁ : z.status = (S.nodes p).status)
    (hz₂ : z.incarnation = (S.nodes p).incarnation) (hz₃ : z.applied = (S.nodes p).applied)
    (hcl : σ.act u = b → AtServer (σ.run u) (σ.run (u + 1)) p y.raft ∧
      (σ.run (u + 1)).net =
        s.packets ++ ((s.hosts p).process.sent e).map (⟨·, (s.hosts p).incarnation⟩) ∧
      ((σ.run (u + 1)).nodes p).status = ((σ.run u).nodes p).status)
    (happlying : y.raft.applying = (s.hosts p).process.raft.applying)
    (happlyCh : y.raft.applyCh = (s.hosts p).process.raft.applyCh)
    (happly : y.apply = (s.hosts p).process.apply) (hmsg : y.msg = (s.hosts p).process.msg)
    (hinv : y.Inv) (hlen : y.handlers.length = (s.hosts p).process.handlers.length)
    (hA : y.Atomic K z.kv ((s.hosts p).handlers (S.handlers.set task.id hd')))
    (hans : (s.hosts p).answers e y = hd'.response) : Simulated K σ u S s p e y := by
  have hl := (hm.hosts p).lives ha
  have hserver : hd'.server = p := hd₃.trans hs.server
  unfold Simulated
  rw [himage]
  refine ⟨hfits, fun hact => ?_⟩
  obtain ⟨hAt, hnet, hstatus⟩ := hcl hact
  have hT : Turns S (S.exec a) p := by
    rw [hexec]
    exact turns_turned hs.handler hd₁ hd₂ hd₃ hd₄ hs.server hz₂
  have hnode : (S.exec a).nodes p = z := by
    rw [hexec]
    simp [Service.turned, Service.setHandler, Service.setNode, hserver]
  have hhandlers : (S.exec a).handlers = S.handlers.set task.id hd' := by
    rw [hexec]
    rfl
  have hresp : (S.exec a).responses = S.responses ++ (s.hosts p).answers e y := by
    rw [hexec, hans]
    rfl
  refine hm.ran hAt hnet hT hresp fun _ => hl.step hT (hstatus.trans hl.cluster) ?_ hinv hlen ?_ ?_
    fun m hy => ?_
  · rw [hnode, hz₁]
    exact hl.service
  · rw [hnode, hhandlers]
    exact hA
  · rw [hnode, hz₃, happly, happlyCh]
    exact hl.stream
  · rw [hmsg] at hy
    exact (hl.msg m hy).mono (Nat.le_succ u) happlying

omit ha in
/-- An event of the cluster alone, which may end the process. -/
theorem advance {b : DistSystem.Action n Op} (himage : (s.hosts p).image p y e = (Host.ends p y, b))
    (hb : b.command = none)
    (hcl : σ.act u = b → AtServer (σ.run u) (σ.run (u + 1)) p y.raft ∧
      (σ.run (u + 1)).net = s.packets ++
        ((s.hosts p).process.sent e).map (⟨·, (s.hosts p).incarnation⟩))
    (hans : (s.hosts p).answers e y = [])
    (hown : σ.act u = b → y.crash = none →
      ({ s.hosts p with process := y } : Host n).Lives K σ (u + 1) S p) :
    Simulated K σ u S s p e y := by
  unfold Simulated
  rw [himage]
  refine ⟨fits_ends hb, fun hact => ?_⟩
  obtain ⟨hAt, hnet⟩ := hcl hact
  obtain ⟨hT, hresp, hsame⟩ := turns_ends S p y
  refine hm.ran hAt hnet hT (by rw [hresp, hans, List.append_nil]) fun hc => ?_
  rw [hsame hc]
  exact hown hact hc

/-! ## Locking and unlocking -/

/-- A handler gets the lock. -/
theorem lock_handler {args : Args} {stage₀ stage : Stage}
    (himage : (s.hosts p).image p y e = (.idle, .idle)) (hs : (s.hosts p).process.next e = some y)
    (hx : (s.hosts p).process.handlers[h]? = some ⟨args, stage₀⟩)
    (hmu : (s.hosts p).process.mu = none)
    (hy : y = { (s.hosts p).process.setStage h stage with mu := some (.handler h) })
    (hne : ∀ reply, stage ≠ .getUnlocking reply)
    (hst : ∀ hd : Handler n, Stands K (s.hosts p).process.loop h (S.nodes p).kv hd stage₀ →
      Stands K (s.hosts p).process.loop h (S.nodes p).kv hd stage)
    (hsent : (s.hosts p).process.sent e = []) (hans : (s.hosts p).answers e y = []) :
    Simulated K σ u S s p e y := by
  have hl := (hm.hosts p).lives ha
  subst hy
  refine hm.stay ha himage rfl (hl.inv.step (Process.next_moves hs ha.2))
    (by simp [Process.setStage]) (hl.atomic.stay hx rfl rfl rfl rfl ?_ hst) hl.stream hl.msg hsent
    hans
  rw [Process.reading_of_mu_none hmu]
  exact Process.reading_of_holder rfl (Process.stageOf_setStage_self hx stage) hne

theorem run_lock (hs : (s.hosts p).process.next (.lock h) = some y) :
    Simulated K σ u S s p (.lock h) y := by
  have hs' := hs
  simp only [Process.next] at hs'
  split at hs'
  · rename_i args index hx
    simp only [Option.ite_none_right_eq_some, Option.some.injEq] at hs'
    exact hm.lock_handler ha rfl hs hx hs'.1 hs'.2.symm (by simp) (fun _ h => h) rfl rfl
  · cases hs'

theorem run_getLock (hs : (s.hosts p).process.next (.getLock h) = some y) :
    Simulated K σ u S s p (.getLock h) y := by
  have hs' := hs
  simp only [Process.next] at hs'
  split at hs'
  · rename_i args₀ args hx
    simp only [Option.ite_none_right_eq_some, Option.some.injEq] at hs'
    exact hm.lock_handler ha rfl hs hx hs'.1 hs'.2.symm (by simp) (fun _ h => h) rfl rfl
  · cases hs'

theorem run_unlock (hs : (s.hosts p).process.next (.unlock h) = some y) :
    Simulated K σ u S s p (.unlock h) y := by
  have hl := (hm.hosts p).lives ha
  have hs' := hs
  simp only [Process.next] at hs'
  split at hs'
  · rename_i args index hx
    obtain rfl := Option.some.inj hs'
    refine hm.stay ha rfl rfl (hl.inv.step (Process.next_moves hs ha.2))
      (by simp [Process.setStage]) (hl.atomic.stay hx rfl rfl rfl rfl ?_ fun _ h => h) hl.stream
      hl.msg rfl rfl
    rw [hl.inv.reading_of_holder (Process.stageOf_eq hx) rfl (by simp)]
    exact Process.reading_of_mu_none rfl
  · cases hs'

/-! ## Applying -/

/-- `getApply` goes on by itself. -/
theorem apply_alone (himage : (s.hosts p).image p y e = (.idle, .idle))
    (hs : (s.hosts p).process.next e = some y) (hc : y.crash = none)
    (hraft : y.raft = (s.hosts p).process.raft) (hmsg : y.msg = (s.hosts p).process.msg)
    (hh : y.handlers = (s.hosts p).process.handlers)
    (hst : Streams (s.hosts p).process.raft.applyCh (S.nodes p).applied.length
      (s.hosts p).process.apply →
        Streams (s.hosts p).process.raft.applyCh (S.nodes p).applied.length y.apply)
    (hA : y.Atomic K (S.nodes p).kv ((s.hosts p).handlers S.handlers))
    (hsent : (s.hosts p).process.sent e = []) (hans : (s.hosts p).answers e y = []) :
    Simulated K σ u S s p e y := by
  have hl := (hm.hosts p).lives ha
  refine hm.stay ha himage hraft (hl.inv.step (Process.next_moves hs hc)) (by rw [hh]) hA
    (by rw [hraft]; exact hst hl.stream) (fun m hy => ?_) hsent hans
  rw [hraft]
  exact hl.msg m (hmsg ▸ hy)

theorem run_lockApply (hs : (s.hosts p).process.next .lockApply = some y) :
    Simulated K σ u S s p .lockApply y := by
  have hl := (hm.hosts p).lives ha
  have hs' := hs
  simp only [Process.next] at hs'
  split at hs'
  · rename_i i op hap
    simp only [Option.ite_none_right_eq_some, Option.some.injEq] at hs'
    obtain ⟨hmu, rfl⟩ := hs'
    refine hm.apply_alone ha rfl hs ha.2 rfl rfl rfl (fun h => ?_)
      (hl.atomic.inside (Process.reading_of_mu_none hmu) rfl rfl rfl (fun h => ?_) fun h => ?_)
      rfl rfl
    · rw [hap] at h
      exact h
    · rw [hap] at h
      exact h
    · rw [hap] at h
      exact h
  · cases hs'

theorem run_execute (hs : (s.hosts p).process.next .execute = some y) :
    Simulated K σ u S s p .execute y := by
  have hl := (hm.hosts p).lives ha
  have hs' := hs
  simp only [Process.next] at hs'
  split at hs'
  · rename_i i op hap
    obtain rfl := Option.some.inj hs'
    refine hm.apply_alone ha rfl hs ha.2 rfl rfl rfl (fun h => ?_) (hl.atomic.execute hl.inv hap)
      rfl rfl
    rw [hap] at h
    exact h
  · cases hs'

theorem run_send (hs : (s.hosts p).process.next .send = some y) :
    Simulated K σ u S s p .send y := by
  have hl := (hm.hosts p).lives ha
  have hs' := hs
  simp only [Process.next] at hs'
  split at hs'
  · rename_i i op hap
    split at hs'
    · rename_i kv hsend
      obtain rfl := Option.some.inj hs'
      refine hm.apply_alone ha rfl hs ha.2 rfl rfl rfl (fun h => ?_)
        (hl.atomic.send hl.inv hap hsend) rfl rfl
      rw [hap] at h
      exact h
    · cases hs'
  · cases hs'

theorem run_unlockApply (hs : (s.hosts p).process.next .unlockApply = some y) :
    Simulated K σ u S s p .unlockApply y := by
  have hl := (hm.hosts p).lives ha
  have hs' := hs
  simp only [Process.next] at hs'
  split at hs'
  · rename_i hap
    obtain rfl := Option.some.inj hs'
    refine hm.apply_alone ha rfl hs ha.2 rfl rfl rfl (fun h => ?_)
      (hl.atomic.inside (hl.inv.reading_of_getApply (by rw [hap]; rfl)) rfl rfl rfl (fun h => ?_)
        fun _ => trivial) rfl rfl
    · rw [hap] at h
      exact h
    · rw [hap] at h
      exact h
  · cases hs'

/-- The message that the channel was emptied for is applied. -/
theorem run_drain (hs : (s.hosts p).process.next .drain = some y) :
    Simulated K σ u S s p .drain y := by
  have hl := (hm.hosts p).lives ha
  have hs' := hs
  simp only [Process.next] at hs'
  split at hs'
  · rename_i i op hap
    obtain rfl := Option.some.inj hs'
    have hdrain : ∃ kv, (S.nodes p).kv.getApply ⟨i, some op⟩ = .ok kv ∧
        Process.Atomic K { (s.hosts p).process with
          kv := (s.hosts p).process.kv.drain i, apply := .sending i op } kv
          ((s.hosts p).handlers S.handlers) := hl.atomic.drain hl.inv hap rfl rfl rfl rfl rfl
    obtain ⟨kv, hkv, hA⟩ := hdrain
    have hst := hl.stream
    rw [hap] at hst
    have himage : (s.hosts p).image p { (s.hosts p).process with
        kv := (s.hosts p).process.kv.drain i, apply := .sending i op } .drain =
          (.apply p ⟨i, some op⟩, .idle) := by
      unfold Host.image
      rw [hap]
    have hexec : S.exec (.apply p ⟨i, some op⟩) = S.setNode p { S.nodes p with
        kv := kv
        applied := (S.nodes p).applied ++ [⟨i, op, !(S.nodes p).kv.checkDup op⟩] } := by
      simp only [Service.exec, if_pos hl.service, Node.getApply, hkv]
      rfl
    unfold Simulated
    rw [himage]
    refine ⟨⟨⟨fun x hx => ?_, fun x hx => ?_⟩, fun _ x hx => ?_⟩, fun hact => ?_⟩
    · cases hx
    · simp only [Service.delivery, if_pos hl.service, Option.mem_def, Option.some.injEq] at hx
      subst hx
      show (σ.raft u p).applyCh[_]? = _
      rw [(hm.hosts p).raft]
      exact hst.2
    · cases hx
    · have hrun := run_idle hact
      have hT : Turns S (S.exec (.apply p ⟨i, some op⟩)) p := by
        rw [hexec]
        refine ⟨fun q hq => Function.update_of_ne hq _ _, ?_, rfl, rfl, rfl, rfl,
          fun _ hd hk => ⟨hd, hk, rfl, rfl, rfl, rfl⟩, fun q _ _ _ hk _ => hk⟩
        simp [Service.setNode]
      have hnode : (S.exec (.apply p ⟨i, some op⟩)).nodes p = { S.nodes p with
          kv := kv
          applied := (S.nodes p).applied ++ [⟨i, op, !(S.nodes p).kv.checkDup op⟩] } := by
        rw [hexec]
        exact Function.update_self _ _ _
      refine hm.ran ?_ ?_ hT ?_ fun _ => hl.step hT ?_ ?_
        (hl.inv.step (Process.next_moves hs ha.2)) rfl ?_ ?_
        fun m hy => (hl.msg m hy).mono (Nat.le_succ u) rfl
      · rw [hrun]
        show AtServer _ _ _ (s.hosts p).process.raft
        rw [← (hm.hosts p).raft]
        exact atServer_refl _ p
      · rw [hrun, hm.net]
        exact (List.append_nil _).symm
      · rw [hexec]
        exact (List.append_nil _).symm
      · rw [hrun]
        exact hl.cluster
      · rw [hnode]
        exact hl.service
      · rw [hnode, hexec]
        exact hA
      · rw [hnode, List.length_append]
        exact hst.1
  · cases hs'

/-! ## Handlers -/

omit ha in
/-- The cluster does nothing. -/
theorem idle_server (hsent : (s.hosts p).process.sent e = []) (hact : σ.act u = .idle) :
    AtServer (σ.run u) (σ.run (u + 1)) p (s.hosts p).process.raft ∧
      (σ.run (u + 1)).net = s.packets ++
        ((s.hosts p).process.sent e).map (⟨·, (s.hosts p).incarnation⟩) ∧
      ((σ.run (u + 1)).nodes p).status = ((σ.run u).nodes p).status := by
  rw [run_idle hact, hsent, ← (hm.hosts p).raft]
  exact ⟨atServer_refl _ p, hm.net.trans (List.append_nil _).symm, rfl⟩

/-- A handler returns without having done anything. -/
theorem refuse {a : Action n} {args : Args} {stage₀ : Stage} {task : Task} {hd : Handler n}
    (himage : (s.hosts p).image p y e = (a, .idle)) (hs : (s.hosts p).process.next e = some y)
    (hc : y.crash = none) (hx : (s.hosts p).process.handlers[h]? = some ⟨args, stage₀⟩)
    (h₀ : ∀ reply, stage₀ ≠ .getUnlocking reply)
    (hslot : Slot K S p (s.hosts p) h ⟨args, stage₀⟩ task hd) (hfits : Fits K S a (σ.run u) .idle)
    (hexec : S.exec a =
      S.turned task.id { hd with phase := .answered hd.args.refused } (S.nodes hd.server))
    (hraft : y.raft = (s.hosts p).process.raft) (hmsg : y.msg = (s.hosts p).process.msg)
    (hh : y.handlers = ((s.hosts p).process.setStage h (.returned args.refused)).handlers)
    (hl : ∀ k r, k ≠ h → y.loop = .answering k r → (s.hosts p).process.loop = .answering k r)
    (hmu : y.mu = (s.hosts p).process.mu) (hap : y.apply = (s.hosts p).process.apply)
    (hkv : y.kv = (s.hosts p).process.kv) (hsent : (s.hosts p).process.sent e = [])
    (hcaller : (s.hosts p).process.caller e = some h) : Simulated K σ u S s p e y := by
  have hlv := (hm.hosts p).lives ha
  have hserver := hslot.server
  subst hserver
  have hans : (s.hosts hd.server).answers e y =
      ({ hd with phase := .answered hd.args.refused } : Handler n).response := by
    have hy : y.handlers[h]? = some ⟨args, .returned hd.args.refused⟩ := by
      rw [hh, Process.handlers_setStage hx, hslot.args]
    exact hslot.answers hcaller hy rfl rfl rfl
  refine hm.turn ha himage hslot hfits hexec rfl rfl rfl rfl rfl rfl rfl
    (fun hact => hraft ▸ hm.idle_server hsent hact) (by rw [hraft]) (by rw [hraft]) hap hmsg
    (hlv.inv.step (Process.next_moves hs hc)) (by rw [hh]; simp [Process.setStage]) ?_ hans
  exact hlv.atomic.turn hx rfl h₀ (by simp) hh hl hmu hap hkv (hslot.sets hlv.nodup _) hslot.args
    trivial

theorem run_timeout (hs : (s.hosts p).process.next (.timeout h) = some y) :
    Simulated K σ u S s p (.timeout h) y := by
  have hs' := hs
  simp only [Process.next] at hs'
  split at hs'
  · rename_i args index hx
    obtain rfl := Option.some.inj hs'
    obtain ⟨task, hd, hslot⟩ := (hm.hosts p).slot ha hx
    refine hm.refuse ha (a := .timeout task.id) ?_ hs ha.2 hx (by simp) hslot
      (fits_of_quiet rfl rfl rfl) (exec_timeout hslot.handler hslot.live hslot.stands.1) rfl rfl rfl
      (fun _ _ _ h => h) rfl rfl rfl rfl rfl
    show (Action.timeout ((s.hosts p).taskId h), _) = _
    rw [hslot.id]
  · cases hs'

theorem run_start (hs : (s.hosts p).process.next (.start h) = some y) :
    Simulated K σ u S s p (.start h) y := by
  have hl := (hm.hosts p).lives ha
  have hs' := hs
  simp only [Process.next] at hs'
  split at hs'
  · rename_i args hx
    split_ifs at hs' with hlead
    · obtain rfl := Option.some.inj hs'
      refine hm.stay ha (if_pos (Process.stageOf_setStage_self hx _)) rfl
        (hl.inv.step (Process.next_moves hs ha.2)) (by simp [Process.setStage])
        (hl.atomic.stay hx rfl rfl rfl rfl ?_ fun _ h => h) hl.stream hl.msg rfl
        (answers_of_stage rfl (Process.handlers_setStage hx _) (by simp))
      exact Process.reading_setStage (Process.stageOf_eq hx) (by simp) (by simp) rfl rfl
    · obtain rfl := Option.some.inj hs'
      obtain ⟨task, hd, hslot⟩ := (hm.hosts p).slot ha hx
      refine hm.refuse ha (a := .start task.id none) ?_ hs ha.2 hx (by simp) hslot
        (fits_of_quiet rfl rfl rfl) (exec_start_none hslot.handler hslot.live hslot.stands) rfl rfl
        rfl (fun _ _ _ h => h) rfl rfl rfl rfl rfl
      show ite _ _ _ = _
      rw [if_neg (by rw [Process.stageOf_setStage_self hx]; simp), hslot.id]
  · cases hs'

theorem run_done (hs : (s.hosts p).process.next .done = some y) :
    Simulated K σ u S s p .done y := by
  have hl := (hm.hosts p).lives ha
  have hs' := hs
  simp only [Process.next] at hs'
  split at hs'
  · rename_i h reply hloop
    split at hs'
    · rename_i args hx
      obtain ⟨task, hd, hslot⟩ := (hm.hosts p).slot ha hx
      have hst := hslot.stands reply hloop
      have hcaller : (s.hosts p).process.caller .done = some h := by
        unfold Process.caller
        rw [hloop]
      have hloop' : ∀ k r, k ≠ h → EventLoop.selecting = .answering k r →
          (s.hosts p).process.loop = .answering k r := by
        intro k r _ hk
        cases hk
      obtain rfl := Option.some.inj hs'
      by_cases hlead : reply.isLeader
      · rw [if_pos hlead] at hst
        have hstage : Process.started args reply = .locking reply.index.toNat := if_pos hlead
        have himage : (s.hosts p).image p { (s.hosts p).process.setStage h
            (Process.started args reply) with loop := .selecting } .done = (.idle, .idle) := by
          unfold Host.image
          simp only [hloop, if_pos hlead]
        obtain ⟨hd', hf, hargs, hst'⟩ := hl.atomic.handler hx
        have hst' := hst' reply hloop
        rw [if_pos hlead] at hst'
        refine hm.stay ha himage rfl (hl.inv.step (Process.next_moves hs ha.2))
          (by simp [Process.setStage]) (hl.atomic.turn hx rfl (by simp) ?_ rfl hloop' rfl rfl rfl
            (Process.sets_self hf) hargs ?_) hl.stream hl.msg rfl
          (answers_of_stage hcaller (Process.handlers_setStage hx _) ?_)
        · simp [hstage]
        · rw [hstage]
          exact hst'
        · simp [hstage]
      · rw [if_neg hlead] at hst
        have hstage : Process.started args reply = .returned args.refused := if_neg hlead
        refine hm.refuse ha (a := .start task.id none) ?_ hs ha.2 hx (by simp) hslot
          (fits_of_quiet rfl rfl rfl) (exec_start_none hslot.handler hslot.live hst) rfl rfl
          (by rw [hstage]) hloop' rfl rfl rfl rfl hcaller
        unfold Host.image
        simp only [hloop, if_neg hlead, hslot.id]
    · cases hs'
  · cases hs'

theorem run_lookup (hs : (s.hosts p).process.next (.lookup h) = some y) :
    Simulated K σ u S s p (.lookup h) y := by
  have hl := (hm.hosts p).lives ha
  have hs' := hs
  simp only [Process.next] at hs'
  split at hs'
  · rename_i args index hx
    obtain rfl := Option.some.inj hs'
    obtain ⟨task, hd, hslot⟩ := (hm.hosts p).slot ha hx
    obtain ⟨hphase, rfl⟩ := hslot.stands
    have hserver := hslot.server
    subst hserver
    refine hm.turn ha (a := .lookup task.id) ?_ hslot (fits_of_quiet rfl rfl rfl)
      (exec_lookup hslot.handler hslot.live hphase) rfl rfl rfl rfl rfl rfl rfl
      (fun hact => hm.idle_server rfl hact) rfl rfl rfl rfl
      (hl.inv.step (Process.next_moves hs ha.2)) (by simp [Process.setStage])
      (hl.atomic.lookup hl.inv hx rfl rfl rfl rfl rfl (hslot.sets hl.nodup _) hslot.args rfl rfl)
      rfl
    show (Action.lookup ((s.hosts hd.server).taskId h), _) = _
    rw [hslot.id]
  · cases hs'

theorem run_receive (hs : (s.hosts p).process.next (.receive h) = some y) :
    Simulated K σ u S s p (.receive h) y := by
  have hl := (hm.hosts p).lives ha
  have hs' := hs
  simp only [Process.next] at hs'
  split at hs'
  · rename_i args index hx
    split at hs'
    · rename_i op kv₁ hr
      obtain rfl := Option.some.inj hs'
      obtain ⟨task, hd, hslot⟩ := (hm.hosts p).slot ha hx
      obtain ⟨hphase, rfl⟩ := hslot.stands
      have hserver := hslot.server
      subst hserver
      have hne : ∀ reply, Process.received args op ≠ .getUnlocking reply := by
        intro reply
        unfold Process.received
        split_ifs
        · split <;> simp
        · simp
      have hreceive : ∃ kv, (S.nodes hd.server).kv.receive hd.index = some (op, kv) ∧
          ∀ {hd' : Handler n} {f' : ℕ → Option (Handler n)},
            Process.Sets ((s.hosts hd.server).handlers S.handlers) h hd' f' → hd'.args = args →
            Stands K (s.hosts hd.server).process.loop h kv hd' (Process.received args op) →
            Process.Atomic K { (s.hosts hd.server).process.setStage h
              (Process.received args op) with kv := kv₁ } kv f' :=
        hl.atomic.receive hx hr hne rfl rfl rfl rfl rfl
      obtain ⟨kv, hkv, hA⟩ := hreceive
      refine hm.turn ha (a := .receive task.id) ?_ hslot (fits_of_quiet rfl rfl rfl)
        (exec_receive hslot.handler hslot.live hphase hkv) rfl rfl rfl rfl rfl rfl rfl
        (fun hact => hm.idle_server rfl hact) rfl rfl rfl rfl
        (hl.inv.step (Process.next_moves hs ha.2)) (by simp [Process.setStage])
        (hA (hslot.sets hl.nodup _) hslot.args ?_) ?_
      · show (Action.receive ((s.hosts hd.server).taskId h), _) = _
        rw [hslot.id]
      · have hargs : hd.args = args := hslot.args
        simp only [Process.received, Args.receiving, hargs]
        split_ifs
        · cases args with
          | get args => exact ⟨rfl, rfl⟩
          | putAppend args => trivial
        · trivial
      · exact hslot.answers_received rfl (Process.handlers_setStage hx _)
    · cases hs'
  · cases hs'

theorem run_get (hs : (s.hosts p).process.next (.get h) = some y)
    (hkeep : K → s.KeepsAck (.run p (.get h))) : Simulated K σ u S s p (.get h) y := by
  have hl := (hm.hosts p).lives ha
  have hs' := hs
  simp only [Process.next] at hs'
  split at hs'
  · rename_i args₀ args hx
    obtain rfl := Option.some.inj hs'
    refine hm.stay ha rfl rfl (hl.inv.step (Process.next_moves hs ha.2))
      (by simp [Process.setStage]) (hl.atomic.get hl.inv hx (fun hK => ?_) rfl rfl rfl rfl rfl)
      hl.stream hl.msg rfl rfl
    refine hkeep hK (p, args) ?_
    simp only [Deployment.reading, hx, Option.mem_def]
  · cases hs'

theorem run_getUnlock (hs : (s.hosts p).process.next (.getUnlock h) = some y) :
    Simulated K σ u S s p (.getUnlock h) y := by
  have hl := (hm.hosts p).lives ha
  have hs' := hs
  simp only [Process.next] at hs'
  split at hs'
  · rename_i args₀ reply hx
    obtain rfl := Option.some.inj hs'
    obtain ⟨task, hd, hslot⟩ := (hm.hosts p).slot ha hx
    have hserver := hslot.server
    subst hserver
    obtain ⟨args, hd₁, hf, -, hphase, hargs₀, hreply, hack, hA⟩ :=
      hl.atomic.getUnlock hl.inv hx (show Process.handlers { (s.hosts hd.server).process.setStage h
        (.returned (.get reply)) with mu := none } = _ from rfl) rfl rfl rfl rfl
    have hd₁ : hd₁ = hd := by
      unfold Host.handlers at hf
      rw [hslot.taken, Option.bind_some, hslot.handler] at hf
      exact (Option.some.inj hf).symm
    subst hd₁
    have hargs : hd₁.args = .get args := hslot.args.trans hargs₀
    refine hm.turn ha (a := .read task.id) ?_ hslot ⟨⟨?_, ?_⟩, fun hK x hx => ?_⟩
      (exec_read hslot.handler hslot.live hphase hargs) rfl rfl rfl rfl rfl rfl rfl
      (fun hact => hm.idle_server rfl hact) rfl rfl rfl rfl
      (hl.inv.step (Process.next_moves hs ha.2)) (by simp [Process.setStage])
      (hA (hslot.sets hl.nodup _) hslot.args trivial) ?_
    · show (Action.read ((s.hosts hd₁.server).taskId h), _) = _
      rw [hslot.id]
    · intro x hx
      cases hx
    · intro x hx
      cases hx
    · obtain ⟨h₁, -, -, h₄⟩ := Service.reader_eq_some hx
      obtain rfl : x.1 = hd₁ := Option.some.inj (h₁.symm.trans hslot.handler)
      obtain rfl : x.2 = args := Args.get.inj (h₄.symm.trans hargs)
      exact hack hK
    · refine hslot.answers rfl (Process.handlers_setStage hx _) rfl rfl ?_
      rw [hreply]
  · cases hs'

/-! ## The event loop -/

theorem ready (hi : (s.hosts p).process.Idle) : ((σ.run u).nodes p).Ready := by
  refine ⟨((hm.hosts p).lives ha).cluster, ?_⟩
  show (σ.raft u p).commitc = none
  rw [(hm.hosts p).raft]
  exact hi.1

omit ha in
/-- The server handles something in the cluster. -/
theorem finish_server {z : Go n Op (Raft n Op × List (Message n Op))}
    (hrun : σ.run (u + 1) = (σ.run u).finish p ((σ.run u).nodes p).incarnation z) :
    AtServer (σ.run u) (σ.run (u + 1)) p (final z) ∧
      (σ.run (u + 1)).net = s.packets ++
        (Process.outbox z).map (⟨·, (s.hosts p).incarnation⟩) := by
  rw [hrun, ← hm.net, ← (hm.hosts p).cluster]
  exact atServer_finish (σ.run u) p _ z

theorem run_command (hs : (s.hosts p).process.next (.command h) = some y) :
    Simulated K σ u S s p (.command h) y := by
  have hl := (hm.hosts p).lives ha
  have hraft := (hm.hosts p).raft
  have hs' := hs
  simp only [Process.next] at hs'
  split at hs'
  · rename_i args hx
    simp only [Option.ite_none_right_eq_some] at hs'
    obtain ⟨hi, hs'⟩ := hs'
    obtain ⟨r, msgs, reply, hstart⟩ := σ.handleStart_ok u p (some args.entry)
    have hstart' := hstart
    rw [hraft] at hstart'
    simp only [hstart', Option.some.injEq] at hs'
    have hsent : (s.hosts p).process.sent (.command h) = msgs := by
      simp only [Process.sent, hx, hstart']
      rfl
    have happ := Raft.handleStart_applier hstart'
    obtain ⟨task, hd, hslot⟩ := (hm.hosts p).slot ha hx
    have hphase : hd.phase = .start := hslot.stands
    subst hs'
    by_cases hlead : (s.hosts p).process.raft.state = .stateLeader
    · have hreply : reply.isLeader = true := by
        rw [Raft.handleStart_eq hlead] at hstart'
        cases hb : ((s.hosts p).process.raft.started (some args.entry)).bcastAppend with
        | error e => simp [hb, Except.map] at hstart'
        | ok x =>
          rw [hb] at hstart'
          cases hstart'
          rfl
      have hready := hm.ready ha hi
      refine hm.turn ha (a := .start task.id (some reply.index.toNat))
        (b := .start p (some args.entry)) ?_ hslot ⟨⟨fun x hx => ?_, fun x hx => ?_⟩,
          fun _ x hx => ?_⟩ (exec_start hslot.handler hslot.live hphase reply.index.toNat)
        rfl rfl rfl rfl (by rw [hslot.server]) (by rw [hslot.server]) (by rw [hslot.server])
        (fun hact => ?_) happ.applying happ.applyCh rfl rfl
        (hl.inv.step (Process.next_moves hs ha.2)) (by simp [Process.setStage]) ?_ rfl
      · simp only [Host.image, hx, hreply, if_true, hslot.id]
      · obtain rfl := Option.some.inj hx
        refine ⟨(hd, some reply.index.toNat), ?_, hslot.server, congrArg (some ·.entry) hslot.args,
          reply, ?_, (if_pos hreply).symm⟩
        · simp [Service.starting, handlerAt_eq hslot.handler hslot.live hphase]
        · have : ((σ.run u).nodes p).raft.handleStart (some args.entry) = .ok (r, msgs, reply) :=
            hstart
          simp [Cluster.startReply, if_pos hready, this]
      · cases hx
      · cases hx
      · have hrun : σ.run (u + 1) = (σ.run u).finish p ((σ.run u).nodes p).incarnation
            (.ok (r, msgs)) := by
          show (σ.run u).exec (σ.act u) = _
          rw [hact]
          have : ((σ.run u).nodes p).raft.handleStart (some args.entry) = .ok (r, msgs, reply) :=
            hstart
          simp only [Cluster.exec, if_pos hready, this]
          rfl
        obtain ⟨hAt, hnet⟩ := hm.finish_server hrun
        refine ⟨hAt, by rw [hsent]; exact hnet, ?_⟩
        rw [hrun, status_finish_ok]
      · rw [hslot.server]
        refine hl.atomic.turn hx rfl (by simp) (by simp) rfl (fun k r' hk hans => ?_) rfl rfl rfl
          (hslot.sets hl.nodup _) hslot.args fun reply' hr' => ?_
        · cases hans
          exact absurd rfl hk
        · cases hr'
          rw [if_pos hreply]
          exact ⟨rfl, rfl⟩
    · rw [show (s.hosts p).process.raft.handleStart (some args.entry) =
        .ok ((s.hosts p).process.raft, [], ⟨-1, -1, false⟩) from if_pos hlead] at hstart'
      cases hstart'
      obtain ⟨hd', hf, hargs, hst⟩ := hl.atomic.handler hx
      refine hm.stay ha ?_ rfl (hl.inv.step (Process.next_moves hs ha.2))
        (by simp [Process.setStage]) ?_ hl.stream hl.msg hsent rfl
      · simp only [Host.image, hx, Bool.false_eq_true, if_false]
      · refine hl.atomic.turn hx rfl (by simp) (by simp) rfl (fun k r' hk hans => ?_) rfl rfl rfl
          (Process.sets_self hf) hargs fun reply' hr' => ?_
        · cases hans
          exact absurd rfl hk
        · cases hr'
          exact hst
  · cases hs'

theorem run_tick {rnd : ℕ} (hs : (s.hosts p).process.next (.tick rnd) = some y) :
    Simulated K σ u S s p (.tick rnd) y := by
  have hl := (hm.hosts p).lives ha
  have hs' := hs
  simp only [Process.next, Option.ite_none_right_eq_some, Option.some.injEq] at hs'
  obtain ⟨hi, rfl⟩ := hs'
  have hrun : σ.act u = .tick p rnd → σ.run (u + 1) =
      (σ.run u).finish p ((σ.run u).nodes p).incarnation ((s.hosts p).process.raft.tick rnd) := by
    intro hact
    show (σ.run u).exec (σ.act u) = _
    rw [hact, ← (hm.hosts p).raft]
    exact if_pos (hm.ready ha hi)
  refine hm.advance rfl rfl (fun hact => ?_) rfl fun hact hc => ?_
  · rw [handled_raft]
    exact hm.finish_server (hrun hact)
  · obtain ⟨r, msgs, hz⟩ := handled_eq_ok hc
    rw [hz] at hs ⊢
    refine hl.handled (Raft.tick_applier hz) (hl.inv.step (Process.next_moves hs ha.2)) ?_
    rw [hrun hact, hz, status_finish_ok]
    exact hl.cluster

/-! ## `stateMachine` -/

omit ha in
/-- `stateMachine` goes on in the cluster. -/
theorem machine_server {z : Go n Op (Raft n Op)} (hcl : ((σ.run u).nodes p).status = .running)
    (hz : (s.hosts p).process.raft.stateMachine = z) (hact : σ.act u = .stateMachine p) :
    AtServer (σ.run u) (σ.run (u + 1)) p (reached z) ∧ (σ.run (u + 1)).net = s.packets ∧
      (∀ r, z = .ok r → ((σ.run (u + 1)).nodes p).status = .running) := by
  have hrun : σ.run (u + 1) = (σ.run u).exec (.stateMachine p) := by
    rw [← hact]
    rfl
  rw [← (hm.hosts p).raft] at hz
  rw [hrun, ← hm.net]
  exact exec_stateMachine hcl hz

/-- `stateMachine` begins or ends a batch. -/
theorem machine (himage : (s.hosts p).image p y e = (Host.ends p y, .stateMachine p))
    (hs : (s.hosts p).process.next e = some y)
    (hy : y = (s.hosts p).process.machine (s.hosts p).process.raft.stateMachine)
    (hmsg : (s.hosts p).process.msg = none)
    (hap : ∀ i c, (s.hosts p).process.raft.applying = some (i, c) → c < i)
    (hsent : (s.hosts p).process.sent e = []) (hans : (s.hosts p).answers e y = []) :
    Simulated K σ u S s p e y := by
  have hl := (hm.hosts p).lives ha
  refine hm.advance himage rfl (fun hact => ?_) hans fun hact hc => ?_
  · obtain ⟨hAt, hnet, -⟩ := hm.machine_server hl.cluster rfl hact
    rw [hy, machine_raft, hsent]
    exact ⟨hAt, hnet.trans (List.append_nil _).symm⟩
  · obtain ⟨r, hr⟩ := machine_eq_ok (hy ▸ hc)
    have hstatus := (hm.machine_server hl.cluster hr hact).2.2 r rfl
    obtain rfl : y = { (s.hosts p).process with raft := r } := by
      rw [hy, hr]
      rfl
    refine hl.step (turns_refl S p) hstatus hl.service (hl.inv.step (Process.next_moves hs ha.2))
      rfl (hl.atomic.aside rfl rfl rfl rfl rfl) ?_ fun m hm => ?_
    · rw [stateMachine_applyCh hap hr]
      exact hl.stream
    · cases hmsg.symm.trans hm

theorem run_commit (hs : (s.hosts p).process.next .commit = some y) :
    Simulated K σ u S s p .commit y := by
  have hs' := hs
  simp only [Process.next] at hs'
  split at hs'
  · rename_i c hmsg hap hcommit
    refine hm.machine ha rfl hs (Option.some.inj hs').symm hmsg (fun i c hi => ?_) rfl rfl
    cases hap.symm.trans hi
  · cases hs'

theorem run_finish (hs : (s.hosts p).process.next .finish = some y) :
    Simulated K σ u S s p .finish y := by
  have hs' := hs
  simp only [Process.next] at hs'
  split at hs'
  · rename_i i c hmsg hap
    simp only [Option.ite_none_right_eq_some, Option.some.injEq] at hs'
    refine hm.machine ha rfl hs hs'.2.symm hmsg (fun i' c' hi => ?_) rfl rfl
    obtain ⟨rfl, rfl⟩ := Prod.mk.inj (Option.some.inj (hap.symm.trans hi))
    exact hs'.1
  · cases hs'

theorem run_read (hs : (s.hosts p).process.next .read = some y) :
    Simulated K σ u S s p .read y := by
  have hl := (hm.hosts p).lives ha
  have hraft := (hm.hosts p).raft
  have hs' := hs
  simp only [Process.next] at hs'
  split at hs'
  · rename_i i c hmsg hap
    simp only [Option.ite_none_right_eq_some] at hs'
    obtain ⟨hic, hs'⟩ := hs'
    split at hs'
    · rename_i e he
      obtain rfl := Option.some.inj hs'
      refine hm.advance rfl rfl (fun hact => ?_) rfl fun hact _ => ?_
      · obtain ⟨hAt, hnet, -⟩ := hm.idle_server (p := p) (e := .read) rfl hact
        exact ⟨hAt, hnet⟩
      · refine hl.step (turns_refl S p) (by rw [run_idle hact]; exact hl.cluster) hl.service
          (hl.inv.step (Process.next_moves hs ha.2)) rfl (hl.atomic.aside rfl rfl rfl rfl rfl)
          hl.stream fun m hm => ?_
        obtain rfl := Option.some.inj hm
        have h2 : 2 ≤ n := σ.two_le_of_applying (t := u) (p := p) (by rw [hraft, hap]; simp)
        have hcommit := (σ.raftOk h2 u p).applier.applying i c (by rw [hraft, hap])
        refine ⟨i, c, hap, hic, u, Nat.le_succ u, hic.trans hcommit, e, ?_, rfl⟩
        rw [hraft]
        exact Raft.getElem?_of_entry he
    · obtain rfl := Option.some.inj hs'
      refine hm.advance rfl rfl (fun hact => ?_) rfl fun _ hc => ?_
      · obtain ⟨hAt, hnet, -⟩ := hm.idle_server (p := p) (e := .read) rfl hact
        exact ⟨hAt, hnet⟩
      · cases hc
  · cases hs'

/-- What `stateMachine` sends it has read before, but the entry has stayed. -/
theorem machine_of_msg {m : ApplyMsg Op} {i c : ℕ} (hmsg : (s.hosts p).process.msg = some m)
    (hap : (s.hosts p).process.raft.applying = some (i, c)) :
    (s.hosts p).process.raft.stateMachine = .ok { (s.hosts p).process.raft with
      applyCh := (s.hosts p).process.raft.applyCh ++ [m], applying := some (i + 1, c) } := by
  have hread := ((hm.hosts p).lives ha).msg m hmsg
  rw [← (hm.hosts p).raft] at hread hap ⊢
  exact hread.stateMachine hap

theorem run_deliver (hs : (s.hosts p).process.next .deliver = some y) :
    Simulated K σ u S s p .deliver y := by
  have hl := (hm.hosts p).lives ha
  have hs' := hs
  simp only [Process.next] at hs'
  split at hs'
  · rename_i applyMsg i c hmsg hap hsel
    have hsm := hm.machine_of_msg ha hmsg hap
    split at hs'
    · rename_i op kv htake
      obtain rfl := Option.some.inj hs'
      refine hm.advance rfl rfl (fun hact => ?_) rfl fun hact _ => ?_
      · obtain ⟨hAt, hnet, -⟩ := hm.machine_server hl.cluster hsm hact
        exact ⟨hAt, hnet.trans (List.append_nil _).symm⟩
      · have hstatus := (hm.machine_server hl.cluster hsm hact).2.2 _ rfl
        have hst := hl.stream
        rw [hsel] at hst
        obtain ⟨happly, hA⟩ := hl.atomic.deliver hsel htake (show Process.loop
          { (s.hosts p).process with
            raft := { (s.hosts p).process.raft with
              applyCh := (s.hosts p).process.raft.applyCh ++ [applyMsg]
              applying := some (i + 1, c) }
            msg := none
            kv := kv
            apply := .locking applyMsg.index op } = _ from rfl) rfl rfl rfl rfl
        refine hl.step (turns_refl S p) hstatus hl.service
          (hl.inv.step (Process.next_moves hs ha.2)) rfl hA ⟨?_, ?_⟩ fun m hm => ?_
        · rw [List.length_append, hst]
          rfl
        · rw [← hst, List.getElem?_concat_length, ← happly]
        · cases hm
    · obtain rfl := Option.some.inj hs'
      refine hm.advance rfl rfl (fun hact => ?_) rfl fun _ hc => ?_
      · obtain ⟨hAt, hnet, -⟩ := hm.machine_server hl.cluster hsm hact
        exact ⟨hAt, hnet.trans (List.append_nil _).symm⟩
      · cases hc
  · cases hs'

/-- Every event that needs nothing from outside. -/
theorem run (hext : e.external = false) (hs : (s.hosts p).process.next e = some y)
    (hkeep : K → s.KeepsAck (.run p e)) : Simulated K σ u S s p e y := by
  cases e with
  | tick rnd => exact hm.run_tick ha hs
  | recv rnd m => cases hext
  | spawn args => cases hext
  | command h => exact hm.run_command ha hs
  | done => exact hm.run_done ha hs
  | commit => exact hm.run_commit ha hs
  | read => exact hm.run_read ha hs
  | deliver => exact hm.run_deliver ha hs
  | finish => exact hm.run_finish ha hs
  | lockApply => exact hm.run_lockApply ha hs
  | execute => exact hm.run_execute ha hs
  | drain => exact hm.run_drain ha hs
  | send => exact hm.run_send ha hs
  | unlockApply => exact hm.run_unlockApply ha hs
  | start h => exact hm.run_start ha hs
  | lock h => exact hm.run_lock ha hs
  | lookup h => exact hm.run_lookup ha hs
  | unlock h => exact hm.run_unlock ha hs
  | receive h => exact hm.run_receive ha hs
  | timeout h => exact hm.run_timeout ha hs
  | getLock h => exact hm.run_getLock ha hs
  | get h => exact hm.run_get ha hs hkeep
  | getUnlock h => exact hm.run_getUnlock ha hs

end Deployment.Matches

end KV

end DistSystem
