import DistSystem.Proofs.KVSimulate

/-!
# The processes as a whole

Clerks, the network, crashes and restarts are in the service and in the cluster what they are here.
With the events of the processes every event of the deployment is one or two actions of the service
and of the cluster together (`Deployment.Matches.exec`), if it does not encode a request that was
overwritten; so a run without such events refines a run of the service on a run of the cluster
(`Plan.refines`). What is proved of the service on a Raft cluster then holds of the processes,
whatever the order in which their goroutines go on (`Plan.linearizable`).
-/

namespace DistSystem

theorem Raft.applyCh_make {n : ℕ} {C : Type} (me : Fin n)
    (persister : Option (RaftStateData n C)) (rnd : ℕ) :
    (Raft.make me persister rnd).applyCh = [] := by
  cases persister with
  | none => rfl
  | some d => rfl

namespace KV

variable {n : ℕ} {K : Prop} {σ : DistSystem.Schedule n Op} {u : ℕ} {S S' : Service n}
  {p : Fin n} {s : Deployment n} {x : Host n} {y : Process n}

/-! ## Clerks -/

/-- A service with the Clerks of another. -/
def Service.withFront (S V : Service n) : Service n :=
  { S with clerks := V.clerks, calls := V.calls, requests := V.requests, responses := V.responses }

theorem Service.exec_withFront (S V : Service n) {a : Action n} (ha : a.AtClerk = true) :
    (S.withFront V).exec a = S.withFront (V.exec a) := by
  cases a with
  | invoke c x => rfl
  | call j =>
    have hcall : (S.withFront V).callAt j .calling = V.callAt j .calling := rfl
    simp only [exec, hcall]
    cases V.callAt j .calling with
    | none => rfl
    | some call =>
      have hclerks : (S.withFront V).clerks = V.clerks := rfl
      simp only [hclerks]
      cases (V.clerks call.clerk).servers[call.attempt % (V.clerks call.clerk).servers.length]? with
      | none => rfl
      | some p => rfl
  | fail j =>
    have hcall : (S.withFront V).callAt j .waiting = V.callAt j .waiting := rfl
    simp only [exec, hcall]
    cases V.callAt j .waiting with
    | none => rfl
    | some call => rfl
  | loseRequest k => rfl
  | reply k =>
    have hresp : (S.withFront V).responses = V.responses := rfl
    simp only [exec, hresp]
    cases V.responses[k]? with
    | none => rfl
    | some rs =>
      have hcall : Service.callAt { S.withFront V with responses := V.responses.eraseIdx k }
          rs.call .waiting =
        Service.callAt { V with responses := V.responses.eraseIdx k } rs.call .waiting := rfl
      simp only [hcall]
      cases Service.callAt { V with responses := V.responses.eraseIdx k } rs.call .waiting with
      | none => rfl
      | some call =>
        simp only
        split_ifs
        · rfl
        · rfl
  | loseResponse k => rfl
  | dispatch | start | lookup | receive | timeout | read | apply | crash | restart | idle =>
    cases ha

/-! ## One event -/

/-- The actions, first one of each and then another, are possible and lead to what stands for
`s`. -/
def Realizes (K : Prop) (σ : DistSystem.Schedule n Op) (u : ℕ) (S : Service n)
    (z : (Action n × DistSystem.Action n Op) × (Action n × DistSystem.Action n Op))
    (s : Deployment n) : Prop :=
  Fits K S z.1.1 (σ.run u) z.1.2 ∧ (σ.act u = z.1.2 →
    Fits K (S.exec z.1.1) z.2.1 (σ.run (u + 1)) z.2.2 ∧ (σ.act (u + 1) = z.2.2 →
      s.Matches K σ (u + 2) ((S.exec z.1.1).exec z.2.1)))

theorem realizes_of_first {a : Action n} {b : DistSystem.Action n Op}
    (hf : Fits K S a (σ.run u) b)
    (h : σ.act u = b → s.Matches K σ (u + 1) (S.exec a)) :
    Realizes K σ u S ((a, b), (.idle, .idle)) s :=
  ⟨hf, fun hact => ⟨fits_of_quiet rfl rfl rfl, fun hact' => (h hact).idle hact'⟩⟩

theorem Host.step_eq_some {e : Process.Event n} :
    x.step e = some y ↔ x.Alive ∧ x.process.next e = some y := by
  unfold Host.step Host.Alive
  split_ifs with hup
  · rw [Process.step_eq_some]
    simp [hup]
  · simp [hup]

theorem Host.external_of_not_blocked {e : Process.Event n} (h : ¬x.blocked e = true) :
    e.external = false := by
  unfold Host.blocked at h
  simp only [Bool.or_eq_true, not_or, Bool.not_eq_true] at h
  exact h.1

/-! ## A new process -/

theorem Process.atomic_init (me : Fin n) (persister : Option (RaftStateData n Op)) (rnd : ℕ)
    (f : ℕ → Option (Handler n)) : (Process.init me persister rnd).Atomic K .startKVServer f := by
  refine ⟨rfl, trivial, fun k r hr => ?_⟩
  cases hr

/-- `StartKVServer` has returned. -/
theorem Host.lives_init {persister : Option (RaftStateData n Op)} {rnd inc ticks : ℕ}
    {memory : Memory Op}
    (hcl : ((σ.run u).nodes p).status = .running)
    (hsv : S.nodes p = ⟨.startKVServer, .running, inc, []⟩) :
    (⟨.init p persister rnd, true, inc, [], memory, ticks⟩ : Host n).Lives K σ u S p := by
  refine ⟨hcl, by rw [hsv], Process.inv_init p persister rnd, ?_, ?_, fun m hm => ?_, rfl,
    List.nodup_nil, fun task ht => ?_⟩
  · rw [hsv]
    exact Process.atomic_init p persister rnd _
  · rw [hsv]
    exact congrArg List.length (Raft.applyCh_make p persister rnd)
  · cases hm
  · cases ht

/-! ## A new handler -/

namespace Host.Lives

variable (hl : x.Lives K σ u S p)

include hl

theorem id_lt {task : Task} (ht : task ∈ x.tasks) : task.id < S.handlers.length := by
  obtain ⟨hd, hk, -⟩ := hl.own task ht
  exact (List.getElem?_eq_some_iff.mp hk).1

/-- The handler comes after all others, in the process and in the service. -/
theorem sets_append (hd : Handler n) {task : Task} (hid : task.id = S.handlers.length) :
    Process.Sets (x.handlers S.handlers) x.process.handlers.length hd
      (({ x with process := y, tasks := x.tasks ++ [task] } : Host n).handlers
        (S.handlers ++ [hd])) := by
  rw [← hl.length]
  unfold Host.handlers
  refine ⟨?_, fun k hk => ?_⟩
  · simp [hid]
  · rcases Nat.lt_or_ge k x.tasks.length with hlt | hge
    · have ht := List.getElem?_eq_getElem hlt
      have hlt' := hl.id_lt (List.getElem_mem hlt)
      simp only [List.getElem?_append_left hlt, ht, Option.bind_some,
        List.getElem?_append_left hlt']
    · have hge' : (x.tasks ++ [task]).length ≤ k := by
        rw [List.length_append, List.length_singleton]
        omega
      simp only [List.getElem?_eq_none hge, List.getElem?_eq_none hge', Option.bind_none]

/-- A request has come in. -/
theorem spawn {rq : Request n} {task : Task} {hd : Handler n} (hid : task.id = S.handlers.length)
    (hcl : ((σ.run (u + 1)).nodes p).status = .running)
    (hsv : S'.nodes p = S.nodes p) (hS' : S'.handlers = S.handlers ++ [hd])
    (hargs : hd.args = rq.args) (hphase : hd.phase = .start) (hcall : hd.call = task.call)
    (hatt : hd.attempt = task.attempt) (hserver : hd.server = p)
    (hinc : hd.incarnation = x.incarnation)
    (hinv : ({ x.process with handlers := x.process.handlers ++ [⟨rq.args, .starting⟩] } :
      Process n).Inv) :
    ({ x with
      process := { x.process with handlers := x.process.handlers ++ [⟨rq.args, .starting⟩] }
      tasks := x.tasks ++ [task] } : Host n).Lives K σ (u + 1) S' p := by
  refine ⟨hcl, by rw [hsv]; exact hl.service, hinv, ?_, by rw [hsv]; exact hl.stream,
    fun m hm => (hl.msg m hm).mono (Nat.le_succ u) rfl, by simp [hl.length], ?_, fun t ht => ?_⟩
  · rw [hsv, hS']
    exact hl.atomic.spawn rq.args (hl.sets_append hd hid) hargs hphase
  · rw [List.map_append, List.map_singleton, List.nodup_append]
    refine ⟨hl.nodup, List.nodup_singleton _, fun a ha b hb => ?_⟩
    obtain ⟨t, ht, rfl⟩ := List.mem_map.mp ha
    rw [List.mem_singleton.mp hb, hid]
    exact (hl.id_lt ht).ne
  · rw [hS']
    rcases List.mem_append.mp ht with ht | ht
    · obtain ⟨hd', hk, h⟩ := hl.own t ht
      exact ⟨hd', (List.getElem?_append_left (hl.id_lt ht)).trans hk, h⟩
    · obtain rfl := List.mem_singleton.mp ht
      exact ⟨hd, by simp [hid], hcall, hatt, hserver, hinc⟩

end Host.Lives

namespace Deployment.Matches

variable (hm : s.Matches K σ u S)

include hm

/-- An event that is not possible. -/
theorem realizes_idle : Realizes K σ u S ((.idle, .idle), (.idle, .idle)) s :=
  realizes_of_first (fits_of_quiet rfl rfl rfl) hm.idle

theorem exec_client (a : Action n) :
    Realizes K σ u S (s.image (.client a)) (s.exec (.client a)) := by
  by_cases ha : a.AtClerk = true
  · simp only [Deployment.image, Deployment.exec, if_pos ha]
    refine realizes_of_first ?_ fun hact => ?_
    · cases a with
      | invoke | call | fail | loseRequest | reply | loseResponse =>
        exact fits_of_quiet rfl rfl rfl
      | dispatch | start | lookup | receive | timeout | read | apply | crash | restart | idle =>
        cases ha
    · have hfront : S = S.withFront s.front := by
        unfold Service.withFront Deployment.front
        rw [← hm.clerks, ← hm.calls, ← hm.requests, ← hm.responses]
      have hexec : S.exec a = S.withFront (s.front.exec a) := by
        rw [← Service.exec_withFront S s.front ha, ← hfront]
      have hrun := run_idle hact
      rw [hexec]
      exact ⟨by rw [hrun]; exact hm.net, rfl, rfl, rfl, rfl, hm.dispatched, fun q =>
        (hm.hosts q).frame (by rw [hrun]) rfl fun _ _ h _ => h⟩
  · simp only [Deployment.image, Deployment.exec, if_neg ha]
    exact hm.realizes_idle

theorem exec_run (p : Fin n) (e : Process.Event n) (hkeep : K → s.KeepsAck (.run p e)) :
    Realizes K σ u S (s.image (.run p e)) (s.exec (.run p e)) := by
  simp only [Deployment.image, Deployment.exec]
  split_ifs with hblocked
  · exact hm.realizes_idle
  · cases hs : (s.hosts p).step e with
    | none => exact hm.realizes_idle
    | some y =>
      obtain ⟨ha, hnext⟩ := Host.step_eq_some.mp hs
      obtain ⟨hf, hsim⟩ := hm.run ha (Host.external_of_not_blocked hblocked) hnext hkeep
      exact realizes_of_first hf hsim

/-- The ticker fires, which may end the process. -/
theorem exec_ring (p : Fin n) : Realizes K σ u S (s.image (.ring p)) (s.exec (.ring p)) := by
  simp only [Deployment.image, Deployment.exec]
  split_ifs with ha
  · refine realizes_of_first (fits_of_quiet rfl rfl rfl) fun hact => ?_
    have hidle := hm.idle hact
    have hx := hidle.hosts p
    have hrun := run_idle hact
    refine ⟨hidle.net, hidle.clerks, hidle.calls, hidle.requests, hidle.responses,
      hidle.dispatched, hm.setHost (fun q _ => by rw [hrun]) (fun _ _ => rfl)
        (fun q _ => spares_refl q S) ?_⟩
    unfold Host.ring
    split_ifs
    · exact ⟨hx.raft, hx.cluster, hx.service, fun _ => (hx.lives ha).congr rfl rfl rfl⟩
    · exact ⟨hx.raft, hx.cluster, hx.service, fun ha => absurd ha.2 (by simp [Process.fail])⟩
  · exact hm.realizes_idle

/-- A request is encoded as it was built. -/
theorem exec_encode (k : ℕ) (hin : s.Intact (.encode k)) :
    Realizes K σ u S (s.image (.encode k)) (s.exec (.encode k)) := by
  simp only [Deployment.image, Deployment.exec]
  split
  · rename_i pk slice hk
    split_ifs with hs
    · have hmsg : pk.msg.encode (s.hosts pk.msg.src).memory slice = pk.msg := hin _ hk slice rfl hs
      refine realizes_of_first (fits_of_quiet rfl rfl rfl) fun hact => ?_
      have hidle := hm.idle hact
      refine ⟨?_, hidle.clerks, hidle.calls, hidle.requests, hidle.responses, hidle.dispatched,
        hidle.hosts⟩
      rw [hidle.net, hmsg]
      exact (Parcel.map_packet_set hk).symm
    · exact hm.realizes_idle
  · exact hm.realizes_idle

theorem exec_drop (k : ℕ) : Realizes K σ u S (s.image (.drop k)) (s.exec (.drop k)) := by
  refine realizes_of_first (fits_of_quiet rfl rfl rfl) fun hact => ?_
  have hrun : σ.run (u + 1) = { σ.run u with net := (σ.run u).net.eraseIdx k } := by
    show (σ.run u).exec (σ.act u) = _
    rw [hact]
    rfl
  refine ⟨?_, hm.clerks, hm.calls, hm.requests, hm.responses, hm.dispatched, fun q =>
    (hm.hosts q).frame (by rw [hrun]) rfl fun _ _ h _ => h⟩
  rw [hrun, hm.net]
  exact List.eraseIdx_map _ _ _

/-- A server takes a request. -/
theorem exec_dispatch (k : ℕ) :
    Realizes K σ u S (s.image (.dispatch k)) (s.exec (.dispatch k)) := by
  simp only [Deployment.image, Deployment.exec]
  cases hk : s.requests[k]? with
  | none => exact hm.realizes_idle
  | some rq =>
    by_cases ha : (s.hosts rq.server).Alive
    · have hl := (hm.hosts rq.server).lives ha
      have hnext : (s.hosts rq.server).process.next (.spawn rq.args) = some
          { (s.hosts rq.server).process with
            handlers := (s.hosts rq.server).process.handlers ++ [⟨rq.args, .starting⟩] } := rfl
      simp only [if_pos ha, Host.step_eq_some.mpr ⟨ha, hnext⟩]
      refine realizes_of_first (fits_of_quiet rfl rfl rfl) fun hact => ?_
      have hrun := run_idle hact
      have hexec : S.exec (.dispatch k) = { S with
          requests := S.requests.eraseIdx k
          handlers := S.handlers ++ [⟨rq.call, rq.attempt, rq.args, rq.server,
            (S.nodes rq.server).incarnation, 0, .start⟩] } := by
        simp only [Service.exec, hm.requests, hk, if_pos hl.service]
      have hx := hm.hosts rq.server
      refine ⟨by rw [hrun]; exact hm.net, by rw [hexec]; exact hm.clerks,
        by rw [hexec]; exact hm.calls, by rw [hexec, ← hm.requests],
        by rw [hexec]; exact hm.responses, ?_, hm.setHost (fun q _ => by rw [hrun])
          (fun q _ => by rw [hexec]) (fun q _ k hd hk _ => ?_) ⟨?_, by rw [hrun]; exact hx.cluster,
          by rw [hexec]; exact hx.service, fun _ => ?_⟩⟩
      · rw [hexec, List.length_append, hm.dispatched]
        rfl
      · rw [hexec]
        exact (List.getElem?_append_left (List.getElem?_eq_some_iff.mp hk).1).trans hk
      · unfold DistSystem.Schedule.raft
        rw [hrun]
        exact hx.raft
      · exact hl.spawn hm.dispatched.symm (by rw [hrun]; exact hl.cluster) (by rw [hexec])
          (by rw [hexec]) rfl rfl rfl rfl rfl hx.service
          (hl.inv.step (Process.next_moves hnext ha.2))
    · have hstep : (s.hosts rq.server).step (.spawn rq.args) = none := by
        cases hs : (s.hosts rq.server).step (.spawn rq.args) with
        | none => rfl
        | some y => exact absurd (Host.step_eq_some.mp hs).1 ha
      simp only [if_neg ha, hstep]
      exact hm.realizes_idle

/-- A server takes a message in the cluster. -/
theorem deliver_server {k rnd : ℕ} {pk : Packet n Op} (hk : s.packets[k]? = some pk)
    (hrecv : s.Receives pk) (ha : (s.hosts pk.msg.dst).Alive)
    (hi : (s.hosts pk.msg.dst).process.Idle) (hact : σ.act u = .deliver k rnd) :
    σ.run (u + 1) = Cluster.finish { σ.run u with net := (σ.run u).net.eraseIdx k } pk.msg.dst
      pk.incarnation ((s.hosts pk.msg.dst).process.raft.step rnd pk.msg) := by
  have hcan : (σ.run u).CanDeliver pk := ⟨hm.ready ha hi, fun hresp => by
    rw [(hm.hosts pk.msg.dst).cluster]
    exact hrecv hresp⟩
  show (σ.run u).exec (σ.act u) = _
  rw [hact, ← (hm.hosts pk.msg.dst).raft]
  simp only [Cluster.exec, hm.net, hk, if_pos hcan]
  rfl

/-- The event loop takes a message of another server. -/
theorem exec_deliver (k rnd : ℕ) :
    Realizes K σ u S (s.image (.deliver k rnd)) (s.exec (.deliver k rnd)) := by
  simp only [Deployment.image, Deployment.exec]
  rcases hk : s.net[k]? with _ | ⟨pk, _ | slice⟩
  · exact hm.realizes_idle
  · have hpk : s.packets[k]? = some pk := by simp [Deployment.packets, hk]
    simp only
    split_ifs with hrecv
    · cases hs : (s.hosts pk.msg.dst).step (.recv rnd pk.msg) with
      | none => exact hm.realizes_idle
      | some y =>
        obtain ⟨ha, hnext⟩ := Host.step_eq_some.mp hs
        have hl := (hm.hosts pk.msg.dst).lives ha
        have hnext' := hnext
        simp only [Process.next, Option.ite_none_right_eq_some, Option.some.injEq] at hnext'
        obtain ⟨hi, rfl⟩ := hnext'
        refine realizes_of_first (fits_ends rfl) fun hact => ?_
        have hrun := hm.deliver_server hpk hrecv ha hi hact
        obtain ⟨hAt, hnet⟩ := atServer_finish { σ.run u with net := (σ.run u).net.eraseIdx k }
          pk.msg.dst pk.incarnation ((s.hosts pk.msg.dst).process.raft.step rnd pk.msg)
        rw [← hrun] at hAt hnet
        obtain ⟨hT, hresp, hsame⟩ := turns_ends S pk.msg.dst ((s.hosts pk.msg.dst).process.handled
          ((s.hosts pk.msg.dst).process.raft.step rnd pk.msg))
        have hserver : AtServer (σ.run u) (σ.run (u + 1)) pk.msg.dst
            ((s.hosts pk.msg.dst).process.handled
              ((s.hosts pk.msg.dst).process.raft.step rnd pk.msg)).raft :=
          ⟨hAt.others, hAt.raft.trans (handled_raft _ _).symm, hAt.incarnation⟩
        have hnet' : (σ.run (u + 1)).net = (s.net.eraseIdx k ++ (s.hosts pk.msg.dst).parcels
            (.recv rnd pk.msg) ((s.hosts pk.msg.dst).process.handled
              ((s.hosts pk.msg.dst).process.raft.step rnd pk.msg)) pk.incarnation).map
              Parcel.packet := by
          rw [hnet, List.map_append, Host.packet_parcels, hm.net, ← List.eraseIdx_map]
          rfl
        have hstep := hm.step (e := .recv rnd pk.msg) hserver hnet' hT
          (hresp.trans (List.append_nil _).symm) fun hc => ?_
        · rw [List.append_nil] at hstep
          exact hstep
        · obtain ⟨r, msgs, hz⟩ := handled_eq_ok hc
          rw [hsame hc]
          rw [hz] at hnext ⊢
          refine hl.handled (Raft.step_applier hz) (hl.inv.step (Process.next_moves hnext ha.2)) ?_
          rw [hrun, hz, status_finish_ok]
          exact hl.cluster
    · exact hm.realizes_idle
  · exact hm.realizes_idle

/-- Whatever the goroutines of `p` are at, they are gone. -/
theorem crash (p : Fin n) (hact : σ.act u = .crash p) :
    (s.exec (.crash p)).Matches K σ (u + 1) (S.exec (.crash p)) := by
  have hrun : σ.run (u + 1) = (σ.run u).exec (.crash p) := congrArg (σ.run u).exec hact
  have hAt : AtServer (σ.run u) (σ.run (u + 1)) p (σ.raft u p) := by
    rw [hrun]
    exact atServer_setNode _ rfl
  have hnode : ((S.exec (.crash p)).nodes p).incarnation = (S.nodes p).incarnation := by
    simp [Service.exec, Service.setNode]
  refine ⟨by rw [hrun]; exact hm.net, hm.clerks, hm.calls, hm.requests, hm.responses,
    hm.dispatched, hm.setHost hAt.others (fun q hq => Function.update_of_ne hq _ _)
      (fun q _ _ _ h _ => h) ⟨hAt.raft.trans (hm.hosts p).raft,
        hAt.incarnation.trans (hm.hosts p).cluster, hnode.trans (hm.hosts p).service,
        fun ha => absurd ha.1 (by simp)⟩⟩

/-- A new `StartKVServer`, where the process was gone. -/
theorem restart (p : Fin n) (rnd : ℕ) (hup : (s.hosts p).up = false)
    (hcl : ((σ.run u).nodes p).status ≠ .running) (hsv : (S.nodes p).status ≠ .running)
    (hact : σ.act u = .restart p rnd) :
    (s.exec (.restart p rnd)).Matches K σ (u + 1) (S.exec (.restart p)) := by
  have hna : ¬ (s.hosts p).Alive := fun ha => by
    cases hup.symm.trans ha.1
  have hrun : σ.run (u + 1) = (σ.run u).setNode p ⟨.make p (s.hosts p).process.raft.persister rnd,
      .running, (s.hosts p).incarnation + 1⟩ := by
    show (σ.run u).exec (σ.act u) = _
    rw [hact, ← (hm.hosts p).raft, ← (hm.hosts p).cluster]
    exact if_neg hcl
  have hexec : S.exec (.restart p) =
      S.setNode p ⟨.startKVServer, .running, (s.hosts p).incarnation + 1, []⟩ := by
    rw [← (hm.hosts p).service]
    exact if_neg hsv
  have hnode : (σ.run (u + 1)).nodes p = ⟨.make p (s.hosts p).process.raft.persister rnd,
      .running, (s.hosts p).incarnation + 1⟩ := by
    rw [hrun]
    exact Function.update_self _ _ _
  have hnode' : (S.exec (.restart p)).nodes p =
      ⟨.startKVServer, .running, (s.hosts p).incarnation + 1, []⟩ := by
    rw [hexec]
    exact Function.update_self _ _ _
  simp only [Deployment.exec, if_neg hna]
  refine ⟨by rw [hrun]; exact hm.net, by rw [hexec]; exact hm.clerks, by rw [hexec]; exact hm.calls,
    by rw [hexec]; exact hm.requests, by rw [hexec]; exact hm.responses,
    by rw [hexec]; exact hm.dispatched, hm.setHost (fun q hq => ?_) (fun q hq => ?_)
      (fun q _ k hd hk _ => by rw [hexec]; exact hk) ⟨?_, by rw [hnode], by rw [hnode'],
        fun _ => Host.lives_init (by rw [hnode]) hnode'⟩⟩
  · rw [hrun]
    exact Function.update_of_ne hq _ _
  · rw [hexec]
    exact Function.update_of_ne hq _ _
  · unfold DistSystem.Schedule.raft
    rw [hnode]
    rfl

theorem exec_crash (p : Fin n) : Realizes K σ u S (s.image (.crash p)) (s.exec (.crash p)) :=
  realizes_of_first (fits_of_quiet rfl rfl rfl) (hm.crash p)

theorem exec_restart (p : Fin n) (rnd : ℕ) :
    Realizes K σ u S (s.image (.restart p rnd)) (s.exec (.restart p rnd)) := by
  by_cases ha : (s.hosts p).Alive
  · simp only [Deployment.image, Deployment.exec, if_pos ha]
    exact hm.realizes_idle
  · simp only [Deployment.image, if_neg ha]
    refine ⟨fits_of_quiet rfl rfl rfl, fun hact => ⟨fits_of_quiet rfl rfl rfl, fun hact' => ?_⟩⟩
    have hcrash := hm.crash p hact
    have hagain : (s.exec (.crash p)).exec (.restart p rnd) = s.exec (.restart p rnd) := by
      unfold Host.Alive at ha
      simp [Deployment.exec, Deployment.setHost, Host.Alive, ha]
    rw [← hagain]
    refine hcrash.restart p rnd ?_ ?_ ?_ hact'
    · simp [Deployment.exec, Deployment.setHost]
    · have hrun : σ.run (u + 1) = (σ.run u).exec (.crash p) :=
        congrArg (σ.run u).exec hact
      rw [hrun]
      simp [Cluster.exec, Cluster.setNode]
    · simp [Service.exec, Service.setNode]

/-- Every event is one or two actions of the service and of the cluster. -/
theorem exec (e : Deployment.Event n) (hin : s.Intact e) (hkeep : K → s.KeepsAck e) :
    Realizes K σ u S (s.image e) (s.exec e) := by
  cases e with
  | client a => exact hm.exec_client a
  | dispatch k => exact hm.exec_dispatch k
  | run p e => exact hm.exec_run p e hkeep
  | ring p => exact hm.exec_ring p
  | encode k => exact hm.exec_encode k hin
  | deliver k rnd => exact hm.exec_deliver k rnd
  | drop k => exact hm.exec_drop k
  | crash p => exact hm.exec_crash p
  | restart p rnd => exact hm.exec_restart p rnd

end Deployment.Matches

/-! ## What comes from outside -/

/-- No call begins and no message is taken. -/
structure Within (z : Action n × DistSystem.Action n Op) : Prop where
  clerk : z.1.clerk = none
  deliver : ∀ k rnd, z.2 ≠ .deliver k rnd

theorem clerk_ends (p : Fin n) (y : Process n) : (Host.ends p y).clerk = none := by
  unfold Host.ends
  split_ifs <;> rfl

theorem Host.within_image (x : Host n) (p : Fin n) (y : Process n) (e : Process.Event n) :
    Within (x.image p y e) := by
  cases e with
  | tick | commit | read | deliver | finish => exact ⟨clerk_ends p y, by simp [Host.image]⟩
  | command | done | drain | start =>
    unfold Host.image
    dsimp only
    split <;> (try split_ifs) <;> exact ⟨rfl, by simp⟩
  | _ => exact ⟨rfl, by simp [Host.image]⟩

namespace Deployment

/-- Only an event of a Clerk is a call that begins, and only the taking of a message is one. -/
theorem image_cases (s : Deployment n) (e : Event n) : Within (s.image e).1 ∨
    (∃ a, e = .client a ∧ (s.image e).1 = (a, .idle)) ∨
    ∃ k rnd pk y, e = .deliver k rnd ∧ s.net[k]? = some ⟨pk, none⟩ ∧
      (s.image e).1 = (Host.ends pk.msg.dst y, .deliver k rnd) := by
  have hidle : Within (n := n) (.idle, .idle) := ⟨rfl, by simp⟩
  cases e with
  | client a =>
    unfold image
    dsimp only
    split_ifs
    · exact .inr (.inl ⟨a, rfl, rfl⟩)
    · exact .inl hidle
  | dispatch k =>
    unfold image
    dsimp only
    split
    · exact .inl hidle
    · split_ifs
      · exact .inl ⟨rfl, by simp⟩
      · exact .inl hidle
  | run p e =>
    unfold image
    dsimp only
    split_ifs
    · exact .inl hidle
    · split
      · exact .inl hidle
      · exact .inl (Host.within_image _ _ _ _)
  | deliver k rnd =>
    unfold image
    dsimp only
    split
    · rename_i pk hk
      split_ifs
      · split
        · exact .inl hidle
        · exact .inr (.inr ⟨k, rnd, pk, _, rfl, hk, rfl⟩)
      · exact .inl hidle
    · exact .inl hidle
  | ring | encode => exact .inl hidle
  | drop k => exact .inl ⟨rfl, by simp [image]⟩
  | crash p => exact .inl ⟨rfl, by simp [image]⟩
  | restart p rnd =>
    unfold image
    dsimp only
    split_ifs
    · exact .inl hidle
    · exact .inl ⟨rfl, by simp⟩

theorem within_image_snd (s : Deployment n) (e : Event n) : Within (s.image e).2 := by
  cases e with
  | client | run | ring | encode | drop | crash => exact ⟨rfl, by simp [image]⟩
  | dispatch | deliver | restart =>
    unfold image
    dsimp only
    split <;> exact ⟨rfl, by simp⟩

/-- Calls begin in the service where they begin here. -/
theorem clerk_image {e : Event n} {c : ℕ} (hc : (s.image e).1.1.clerk = some c) :
    e.clerk = some c := by
  rcases s.image_cases e with h | ⟨a, rfl, h⟩ | ⟨k, rnd, pk, y, rfl, -, h⟩
  · cases h.clerk.symm.trans hc
  · rw [h] at hc
    exact hc
  · rw [h, clerk_ends] at hc
    cases hc

end Deployment

/-! ## Runs -/

namespace Plan

variable (π : Plan n)

theorem pair_two_mul (t : ℕ) : π.pair (2 * t) = ((π.run t).image (π.act t)).1 := by
  have h₁ : 2 * t / 2 = t := by omega
  have h₂ : 2 * t % 2 = 0 := by omega
  simp only [pair, h₁, h₂, if_true]

theorem pair_two_mul_add_one (t : ℕ) : π.pair (2 * t + 1) = ((π.run t).image (π.act t)).2 := by
  have h₁ : (2 * t + 1) / 2 = t := by omega
  have h₂ : (2 * t + 1) % 2 ≠ 0 := by omega
  simp only [pair, h₁, if_neg h₂]

theorem matches_zero : (π.run 0).Matches K π.cluster 0 (π.service.run 0) :=
  ⟨rfl, rfl, rfl, rfl, rfl, rfl, fun _ => ⟨rfl, rfl, rfl, fun _ => Host.lives_init rfl rfl⟩⟩

variable {π}

/-- The first pair of actions for an event, and the second. -/
theorem realizes (hin : π.Always Deployment.Intact) (hK : K → π.Always Deployment.KeepsAck) {t : ℕ}
    (hm : (π.run t).Matches K π.cluster (2 * t) (π.service.run (2 * t))) :
    Fits K (π.service.run (2 * t)) (π.service.act (2 * t)) (π.cluster.run (2 * t))
        (π.cluster.act (2 * t)) ∧
      Fits K (π.service.run (2 * t + 1)) (π.service.act (2 * t + 1)) (π.cluster.run (2 * t + 1))
        (π.cluster.act (2 * t + 1)) ∧
      (π.run (t + 1)).Matches K π.cluster (2 * (t + 1)) (π.service.run (2 * (t + 1))) := by
  obtain ⟨h₁, h₂⟩ := hm.exec (π.act t) (hin t) fun hk => hK hk t
  rw [← π.pair_two_mul t] at h₁ h₂
  rw [← π.pair_two_mul_add_one t] at h₂
  obtain ⟨h₃, h₄⟩ := h₂ rfl
  exact ⟨h₁, h₃, h₄ rfl⟩

theorem matched (hin : π.Always Deployment.Intact) (hK : K → π.Always Deployment.KeepsAck) :
    ∀ t, (π.run t).Matches K π.cluster (2 * t) (π.service.run (2 * t))
  | 0 => π.matches_zero
  | t + 1 => (realizes hin hK (matched hin hK t)).2.2

theorem fits (hin : π.Always Deployment.Intact) (hK : K → π.Always Deployment.KeepsAck) (u : ℕ) :
    Fits K (π.service.run u) (π.service.act u) (π.cluster.run u) (π.cluster.act u) := by
  obtain ⟨h₁, h₂, -⟩ := realizes hin hK (matched hin hK (u / 2))
  rcases Nat.mod_two_eq_zero_or_one u with hu | hu
  · rwa [show 2 * (u / 2) = u by omega] at h₁
  · rwa [show 2 * (u / 2) + 1 = u by omega] at h₂

theorem runsOn (hin : π.Always Deployment.Intact) : RunsOn π.service π.cluster := fun u =>
  (fits (K := False) hin (fun h => h.elim) u).1

theorem keepsAck (hin : π.Always Deployment.Intact) (hkeep : π.Always Deployment.KeepsAck) :
    π.service.Always KeepsAck := fun u =>
  (fits (K := True) hin (fun _ => hkeep) u).2 trivial

/-! ## Clerks that make one call after another -/

theorem oneAtATime (hin : π.Always Deployment.Intact) (hone : π.Always Deployment.OneAtATime) :
    π.service.Always OneAtATime := by
  intro u c hc call hcall
  obtain ⟨t, rfl | rfl⟩ : ∃ t, u = 2 * t ∨ u = 2 * t + 1 := ⟨u / 2, by omega⟩
  · have hm := matched (K := False) hin (fun h => h.elim) t
    rw [hm.calls] at hcall
    have hact : π.service.act (2 * t) = ((π.run t).image (π.act t)).1.1 :=
      congrArg Prod.fst (π.pair_two_mul t)
    rw [hact] at hc
    exact hone t c (Deployment.clerk_image hc) call hcall
  · have hact : π.service.act (2 * t + 1) = ((π.run t).image (π.act t)).2.1 :=
      congrArg Prod.fst (π.pair_two_mul_add_one t)
    rw [hact, (Deployment.within_image_snd _ _).clerk] at hc
    cases hc

end Plan

/-! ## What is seen from outside -/

/-- The deployment is what it is in the service on the cluster: for the Clerks, on the network and
in Raft, and in the store of a server where nobody has `kv.mu`. -/
structure Deployment.Shows (s : Deployment n) (S : Service n) (c : Cluster n Op) : Prop where
  calls : S.calls = s.calls
  requests : S.requests = s.requests
  responses : S.responses = s.responses
  net : c.net = s.packets
  raft : ∀ p, (c.nodes p).raft = (s.hosts p).process.raft
  running : ∀ p, (s.hosts p).Alive →
    (S.nodes p).status = .running ∧ (c.nodes p).status = .running
  store : ∀ p, (s.hosts p).Alive → (s.hosts p).process.mu = none →
    (S.nodes p).kv.db = (s.hosts p).process.kv.db ∧
    (S.nodes p).kv.ack = (s.hosts p).process.kv.ack ∧
    (S.nodes p).kv.result = (s.hosts p).process.kv.result

theorem Process.Atomic.store_of_mu_none {s : Process n} {kv : RaftKV} {f : ℕ → Option (Handler n)}
    (hA : s.Atomic K kv f) (hI : s.Inv) (hmu : s.mu = none) :
    kv.db = s.kv.db ∧ kv.ack = s.kv.ack ∧ kv.result = s.kv.result := by
  have hstore := hA.store
  rw [Process.reading_of_mu_none hmu] at hstore
  have hout : s.apply.critical = false := by
    have := hI.mutex .getApply
    rw [hmu] at this
    simpa [Process.inside] using this
  rw [hstore]
  generalize s.apply = a at hout
  cases a with
  | selecting | locking => exact ⟨rfl, rfl, rfl⟩
  | applying | draining | sending | unlocking => cases hout

theorem Deployment.Matches.shows (hm : s.Matches K σ u S) : s.Shows S (σ.run u) := by
  refine ⟨hm.calls, hm.requests, hm.responses, hm.net, fun p => (hm.hosts p).raft, fun p ha => ?_,
    fun p ha hmu => ?_⟩
  · have hl := (hm.hosts p).lives ha
    exact ⟨hl.service, hl.cluster⟩
  · have hl := (hm.hosts p).lives ha
    exact hl.atomic.store_of_mu_none hl.inv hmu

namespace Plan

/-- A run of the processes, whatever the order in which their goroutines go on, and with crashes and
restarts between the iterations of the event loops, is a run of the service on a run of the cluster,
if requests are encoded with the entries they were built with. -/
theorem refines (π : Plan n) (hin : π.Always Deployment.Intact) :
    ∃ (κ : Schedule n) (σ : DistSystem.Schedule n Op) (time : ℕ → ℕ),
      κ.servers = π.servers ∧ κ.id = π.id ∧ RunsOn κ σ ∧ StrictMono time ∧
        ∀ t, (π.run t).Shows (κ.run (time t)) (σ.run (time t)) := by
  refine ⟨π.service, π.cluster, fun t => 2 * t, rfl, rfl, runsOn hin, fun t u h => ?_, fun t =>
    (matched (K := False) hin (fun h => h.elim) t).shows⟩
  show 2 * t < 2 * u
  omega

variable (π : Plan n)

/-- The calls on the Clerks up to time `t`, as the callers see them. -/
def history (t : ℕ) : Linear.History ℕ Args Reply where
  request := fun j => (π.run t).calls[j]?.map Call.args
  reply := fun j => (π.run t).calls[j]?.bind Call.reply
  before := fun i j => ∃ u ≤ t, (∃ call, (π.run u).calls[i]? = some call ∧
    ∃ reply, call.phase = .returned reply) ∧ (π.run u).calls.length ≤ j

variable {π}

/-- To their callers the processes together are one store, if the Clerks make one call after
another, no `Get` lowers `ack` and requests are encoded with the entries they were built with. -/
theorem linearizable (hid : Function.Injective π.id) (hin : π.Always Deployment.Intact)
    (hone : π.Always Deployment.OneAtATime) (hkeep : π.Always Deployment.KeepsAck) (t : ℕ) :
    ∃ l, store.Linearizes (π.history t) l := by
  obtain ⟨l, hl⟩ := (runsOn hin).linearizes hid (oneAtATime hin hone) (keepsAck hin hkeep) (2 * t)
  have hcalls : ∀ t, (π.service.run (2 * t)).calls = (π.run t).calls := fun t =>
    (matched (K := False) hin (fun h => h.elim) t).calls
  refine ⟨l, hl.mono ?_ ?_ fun i j hij => ?_⟩
  · simp only [history, Schedule.history, hcalls]
  · simp only [history, Schedule.history, hcalls]
  · obtain ⟨u, hu, ⟨call, hi, reply, hr⟩, hlen⟩ := hij
    refine ⟨2 * u, by omega, ⟨reply, call, ?_, hr⟩, ?_⟩
    · rw [hcalls]
      exact hi
    · rw [hcalls]
      exact hlen

/-! ## A put and a `Get` at once -/

def ofList (es : List (Deployment.Event n)) : Plan n :=
  ⟨fun _ => List.finRange n, fun c => c, fun _ => 0, fun _ _ => 1,
    fun t => es.getD t (.client .idle)⟩

theorem always_ofList {P : Deployment n → Deployment.Event n → Prop}
    (hidle : ∀ s, P s (.client .idle)) {es : List (Deployment.Event n)}
    (h : ∀ t < es.length, P ((ofList es).run t) (es.getD t (.client .idle))) :
    (ofList es).Always P := by
  intro t
  rcases Nat.lt_or_ge t es.length with ht | ht
  · exact h t ht
  · have hact : (ofList es).act t = .client .idle := by
      simp [ofList, List.getD_eq_getElem?_getD, List.getElem?_eq_none ht]
    rw [hact]
    exact hidle _

/-- Three servers elect one, whose handlers get a put and a `Get`; both are applied, and the `Get`
returns first. -/
def putGet : List (Deployment.Event 3) := List.flatten [
  [.client (.invoke 0 (.put "k" "v")), .client (.invoke 1 (.get "k")), .client (.call 0),
    .client (.call 1), .dispatch 0, .dispatch 0],
  (List.replicate 10 [.ring s₀, .run s₀ (.tick 0)]).flatten,
  [.deliver 0 0, .deliver 1 0],
  [.start 0, .start 1, .command 0, .done, .command 1, .done].map (.run s₀),
  [.encode 5, .deliver 5 0, .deliver 6 0],
  [.commit, .lock 0, .lookup 0, .unlock 0, .lock 1, .lookup 1, .read, .deliver, .unlock 1,
    .lockApply, .execute, .drain, .send, .unlockApply, .receive 0, .read, .deliver, .lockApply,
    .execute, .drain, .send, .unlockApply, .receive 1, .getLock 1, .get 1, .getUnlock 1].map
      (.run s₀),
  [.client (.reply 1)]]

theorem intact_putGet : (ofList putGet).Always Deployment.Intact :=
  always_ofList (fun _ => trivial) (by decide +kernel)

theorem refines_putGet : ∃ (κ : Schedule 3) (σ : DistSystem.Schedule 3 Op) (time : ℕ → ℕ),
    κ.servers = (ofList putGet).servers ∧ κ.id = (ofList putGet).id ∧ RunsOn κ σ ∧
      StrictMono time ∧ ∀ t, ((ofList putGet).run t).Shows (κ.run (time t)) (σ.run (time t)) :=
  refines _ intact_putGet

theorem linearizable_putGet :
    (((ofList putGet).history 64).reply 0 = none ∧
      ((ofList putGet).history 64).reply 1 = some (.get ⟨false, some .ok, "v"⟩)) ∧
    ∃ l, store.Linearizes ((ofList putGet).history 64) l := by
  have hone : (ofList putGet).Always Deployment.OneAtATime :=
    always_ofList (fun _ c hc => by cases hc) (by decide +kernel)
  have hkeep : (ofList putGet).Always Deployment.KeepsAck :=
    always_ofList (fun _ x hx => by cases hx) (by decide +kernel)
  exact ⟨by decide +kernel, linearizable (fun _ _ h => h) intact_putGet hone hkeep 64⟩

end Plan

end KV

end DistSystem
