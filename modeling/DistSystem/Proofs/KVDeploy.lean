import DistSystem.KV.Deployment
import DistSystem.Proofs.KVAtomic

/-!
# The processes refine the service on the cluster

A run of the processes with their goroutines is a run of the service together with a run of the
cluster that it is on, if requests are encoded as they were built: the event loops and
`stateMachine` are the cluster, and the critical sections of the handlers and of `getApply` are the
service, each at the one event where it takes effect (`Host.image`). What `stateMachine` has read
from the log and not sent yet is still there when it is sent, since it is committed.
-/

namespace DistSystem.KV

variable {n : ℕ}

/-! ## What an event stands for -/

namespace Host

variable (p : Fin n) (x : Host n)

/-- The number of the request that the handler `h` is for. -/
def taskId (h : ℕ) : ℕ := (x.tasks[h]?.map Task.id).getD 0

/-- A panic in one of its parts ends the whole process. -/
def ends (s' : Process n) : Action n := if s'.crash = none then .idle else .crash p

/-- What an event of the process, after which it is `s'`, is for the service and for the
cluster. -/
def image (s' : Process n) : Process.Event n → Action n × DistSystem.Action n Op
  | .tick rnd => (ends p s', .tick p rnd)
  | .command h =>
    match s'.loop, x.process.handlers[h]? with
    | .answering _ reply, some y =>
      if reply.isLeader then
        (.start (x.taskId h) (some reply.index.toNat), .start p (some y.args.entry))
      else (.idle, .idle)
    | _, _ => (.idle, .idle)
  | .done =>
    match x.process.loop with
    | .answering h reply =>
      if reply.isLeader then (.idle, .idle) else (.start (x.taskId h) none, .idle)
    | .selecting => (.idle, .idle)
  | .commit => (ends p s', .stateMachine p)
  | .read => (ends p s', .idle)
  | .deliver => (ends p s', .stateMachine p)
  | .finish => (ends p s', .stateMachine p)
  | .drain =>
    match x.process.apply with
    | .draining i op => (.apply p ⟨i, some op⟩, .idle)
    | _ => (.idle, .idle)
  | .start h =>
    if s'.stageOf h = some .proposing then (.idle, .idle) else (.start (x.taskId h) none, .idle)
  | .lookup h => (.lookup (x.taskId h), .idle)
  | .receive h => (.receive (x.taskId h), .idle)
  | .timeout h => (.timeout (x.taskId h), .idle)
  | .getUnlock h => (.read (x.taskId h), .idle)
  | _ => (.idle, .idle)

end Host

/-- What an event is for the service and for the cluster: two actions of each. -/
def Deployment.image (s : Deployment n) : Deployment.Event n →
    (Action n × DistSystem.Action n Op) × (Action n × DistSystem.Action n Op)
  | .client a => ((if a.AtClerk then a else .idle, .idle), (.idle, .idle))
  | .dispatch k =>
    match s.requests[k]? with
    | none => ((.idle, .idle), (.idle, .idle))
    | some rq =>
      (if (s.hosts rq.server).Alive then (.dispatch k, .idle) else (.idle, .idle), (.idle, .idle))
  | .run p e =>
    (if (s.hosts p).blocked e then (.idle, .idle)
      else match (s.hosts p).step e with
        | none => (.idle, .idle)
        | some y => (s.hosts p).image p y e, (.idle, .idle))
  | .ring _ => ((.idle, .idle), (.idle, .idle))
  | .encode _ => ((.idle, .idle), (.idle, .idle))
  | .deliver k rnd =>
    match s.net[k]? with
    | some ⟨pk, none⟩ =>
      (if s.Receives pk then
        match (s.hosts pk.msg.dst).step (.recv rnd pk.msg) with
        | none => (.idle, .idle)
        | some y => (Host.ends pk.msg.dst y, .deliver k rnd)
      else (.idle, .idle), (.idle, .idle))
    | _ => ((.idle, .idle), (.idle, .idle))
  | .drop k => ((.idle, .drop k), (.idle, .idle))
  | .crash p => ((.crash p, .crash p), (.idle, .idle))
  | .restart p rnd =>
    if (s.hosts p).Alive then ((.idle, .idle), (.idle, .idle))
    else ((.crash p, .crash p), (.restart p, .restart p rnd))

namespace Plan

variable (π : Plan n)

def pair (u : ℕ) : Action n × DistSystem.Action n Op :=
  let x := (π.run (u / 2)).image (π.act (u / 2))
  if u % 2 = 0 then x.1 else x.2

/-- The run of the service. -/
def service : Schedule n := ⟨π.servers, π.id, fun u => (π.pair u).1⟩

/-- The run of the cluster that it is on. -/
def cluster : DistSystem.Schedule n Op := ⟨π.rnd, fun u => (π.pair u).2⟩

end Plan

/-! ## What stands for what -/

/-- How many messages from `applyCh` count as applied, when `getApply` is where it is. -/
def Streams (applyCh : List (ApplyMsg Op)) (k : ℕ) : ApplyLoop → Prop
  | .locking i op => applyCh.length = k + 1 ∧ applyCh[k]? = some ⟨i, some op⟩
  | .applying i op => applyCh.length = k + 1 ∧ applyCh[k]? = some ⟨i, some op⟩
  | .draining i op => applyCh.length = k + 1 ∧ applyCh[k]? = some ⟨i, some op⟩
  | .selecting => applyCh.length = k
  | .sending _ _ => applyCh.length = k
  | .unlocking => applyCh.length = k

section

variable (K : Prop) (σ : DistSystem.Schedule n Op) (u : ℕ) (S : Service n) (p : Fin n)

/-- `stateMachine` has read a committed entry of its batch. -/
def ReadAt (r : Raft n Op) (m : ApplyMsg Op) : Prop :=
  ∃ i c, r.applying = some (i, c) ∧ i ≤ c ∧ ∃ w ≤ u, i ≤ (σ.raft w p).commitIndex ∧
    ∃ e, (σ.raft w p).log[i]? = some e ∧ m = ⟨e.index, e.command⟩

namespace Host

/-- The handlers of the service that those of the process stand for. -/
def handlers (x : Host n) (hds : List (Handler n)) (h : ℕ) : Option (Handler n) :=
  x.tasks[h]?.bind fun task => hds[task.id]?

/-- A process that runs, with its server in the cluster and in the service. -/
structure Lives (x : Host n) : Prop where
  cluster : ((σ.run u).nodes p).status = .running
  service : (S.nodes p).status = .running
  inv : x.process.Inv
  atomic : x.process.Atomic K (S.nodes p).kv (x.handlers S.handlers)
  stream : Streams x.process.raft.applyCh (S.nodes p).applied.length x.process.apply
  msg : ∀ m, x.process.msg = some m → ReadAt σ u p x.process.raft m
  length : x.tasks.length = x.process.handlers.length
  nodup : (x.tasks.map Task.id).Nodup
  own : ∀ task ∈ x.tasks, ∃ hd, S.handlers[task.id]? = some hd ∧ hd.call = task.call ∧
    hd.attempt = task.attempt ∧ hd.server = p ∧ hd.incarnation = x.incarnation

/-- Of a process that is gone there is what it has persisted. -/
structure Matches (x : Host n) : Prop where
  raft : σ.raft u p = x.process.raft
  cluster : ((σ.run u).nodes p).incarnation = x.incarnation
  service : (S.nodes p).incarnation = x.incarnation
  lives : x.Alive → x.Lives K σ u S p

end Host

/-- The messages in flight, as they were built or encoded. -/
def Deployment.packets (s : Deployment n) : List (Packet n Op) := s.net.map Parcel.packet

structure Deployment.Matches (s : Deployment n) : Prop where
  net : (σ.run u).net = s.packets
  clerks : S.clerks = s.clerks
  calls : S.calls = s.calls
  requests : S.requests = s.requests
  responses : S.responses = s.responses
  dispatched : S.handlers.length = s.dispatched
  hosts : ∀ p, (s.hosts p).Matches K σ u S p

end

section

variable {K : Prop} {σ : DistSystem.Schedule n Op} {u : ℕ} {S S' : Service n} {p q : Fin n}
  {s : Deployment n} {x : Host n} {y : Process n}

/-! ## The others -/

theorem ReadAt.mono {r r' : Raft n Op} {m : ApplyMsg Op} {v : ℕ} (h : ReadAt σ u p r m)
    (huv : u ≤ v) (hr : r'.applying = r.applying) : ReadAt σ v p r' m := by
  obtain ⟨i, c, ha, hic, w, hw, h⟩ := h
  exact ⟨i, c, hr.trans ha, hic, w, hw.trans huv, h⟩

/-- Handlers of a server are where they were. -/
def Spares (q : Fin n) (S S' : Service n) : Prop :=
  ∀ (k : ℕ) (hd : Handler n), S.handlers[k]? = some hd → hd.server = q → S'.handlers[k]? = some hd

theorem Host.Lives.handlers_eq (h : x.Lives K σ u S q) (hs : Spares q S S') :
    x.handlers S'.handlers = x.handlers S.handlers := by
  funext k
  unfold Host.handlers
  cases ht : x.tasks[k]? with
  | none => rfl
  | some task =>
    obtain ⟨hd, hk, -, -, hq, -⟩ := h.own task (List.mem_of_getElem? ht)
    simp only [Option.bind_some, hk, hs _ hd hk hq]

/-- A server that an action of the cluster and one of the service do not touch. -/
theorem Host.Matches.frame (h : x.Matches K σ u S q)
    (hc : (σ.run (u + 1)).nodes q = (σ.run u).nodes q) (hn : S'.nodes q = S.nodes q)
    (hs : Spares q S S') : x.Matches K σ (u + 1) S' q := by
  have hraft : σ.raft (u + 1) q = σ.raft u q := by
    unfold DistSystem.Schedule.raft
    rw [hc]
  refine ⟨hraft.trans h.raft, by rw [hc, h.cluster], by rw [hn, h.service], fun ha => ?_⟩
  have hl := h.lives ha
  refine ⟨by rw [hc, hl.cluster], by rw [hn, hl.service], hl.inv, ?_, by rw [hn]; exact hl.stream,
    fun m hm => (hl.msg m hm).mono (Nat.le_succ u) rfl, hl.length, hl.nodup, fun task ht => ?_⟩
  · rw [hn, hl.handlers_eq hs]
    exact hl.atomic
  · obtain ⟨hd, hk, h₁, h₂, h₃, h₄⟩ := hl.own task ht
    exact ⟨hd, hs _ hd hk h₃, h₁, h₂, h₃, h₄⟩

theorem spares_refl (q : Fin n) (S : Service n) : Spares q S S := fun _ _ h _ => h

/-- Nothing happens. -/
theorem Deployment.Matches.idle (h : s.Matches K σ u S) (ha : σ.act u = .idle) :
    s.Matches K σ (u + 1) S := by
  have hrun : σ.run (u + 1) = σ.run u := by
    show (σ.run u).exec (σ.act u) = _
    rw [ha]
    rfl
  exact ⟨by rw [hrun, h.net], h.clerks, h.calls, h.requests, h.responses, h.dispatched,
    fun q => (h.hosts q).frame (by rw [hrun]) rfl (spares_refl q S)⟩

/-! ## One server -/

/-- What an action of the cluster does to one server. -/
structure AtServer (c c' : Cluster n Op) (p : Fin n) (r : Raft n Op) : Prop where
  others : ∀ q ≠ p, c'.nodes q = c.nodes q
  raft : (c'.nodes p).raft = r
  incarnation : (c'.nodes p).incarnation = (c.nodes p).incarnation

/-- What an action of the service does at one server. -/
structure Turns (S S' : Service n) (p : Fin n) : Prop where
  others : ∀ q ≠ p, S'.nodes q = S.nodes q
  incarnation : (S'.nodes p).incarnation = (S.nodes p).incarnation
  clerks : S'.clerks = S.clerks
  calls : S'.calls = S.calls
  requests : S'.requests = S.requests
  length : S'.handlers.length = S.handlers.length
  handlers : ∀ (k : ℕ) (hd : Handler n), S.handlers[k]? = some hd →
    ∃ hd' : Handler n, S'.handlers[k]? = some hd' ∧
    hd'.call = hd.call ∧ hd'.attempt = hd.attempt ∧ hd'.server = hd.server ∧
    hd'.incarnation = hd.incarnation
  spares : ∀ q ≠ p, Spares q S S'

theorem turns_refl (S : Service n) (p : Fin n) : Turns S S p :=
  ⟨fun _ _ => rfl, rfl, rfl, rfl, rfl, rfl, fun _ hd h => ⟨hd, h, rfl, rfl, rfl, rfl⟩,
    fun q _ => spares_refl q S⟩

/-- All hosts, when something is done to one. -/
theorem Deployment.Matches.setHost (h : s.Matches K σ u S)
    (hc : ∀ q ≠ p, (σ.run (u + 1)).nodes q = (σ.run u).nodes q)
    (hn : ∀ q ≠ p, S'.nodes q = S.nodes q) (hs : ∀ q ≠ p, Spares q S S')
    (hx : x.Matches K σ (u + 1) S' p) (q : Fin n) :
    ((s.setHost p x).hosts q).Matches K σ (u + 1) S' q := by
  show (Function.update s.hosts p x q).Matches K σ (u + 1) S' q
  rcases eq_or_ne q p with rfl | hq
  · rwa [Function.update_self]
  · rw [Function.update_of_ne hq]
    exact (h.hosts q).frame (hc q hq) (hn q hq) (hs q hq)

theorem Host.packet_parcels (e : Process.Event n) (y : Process n) (i : ℕ) :
    (x.parcels e y i).map Parcel.packet = (x.process.sent e).map (⟨·, i⟩) := by
  unfold parcels
  rw [List.map_map]
  rfl

/-- What is in `tickc` and in the arrays of the log is not looked at. -/
theorem Host.Lives.congr {x' : Host n} (h : x.Lives K σ u S p) (hp : x'.process = x.process)
    (hi : x'.incarnation = x.incarnation) (ht : x'.tasks = x.tasks) : x'.Lives K σ u S p := by
  obtain ⟨y, up, inc, tasks, memory, ticks⟩ := x'
  obtain rfl : y = x.process := hp
  obtain rfl : inc = x.incarnation := hi
  obtain rfl : tasks = x.tasks := ht
  exact ⟨h.cluster, h.service, h.inv, h.atomic, h.stream, h.msg, h.length, h.nodup, h.own⟩

/-- The process of `p` goes on, and its server in the cluster and in the service with it. -/
theorem Deployment.Matches.step (h : s.Matches K σ u S) {e : Process.Event n}
    {net : List (Parcel n Op)} {rs : List Response}
    (hc : AtServer (σ.run u) (σ.run (u + 1)) p y.raft)
    (hnet : (σ.run (u + 1)).net = net.map Parcel.packet) (hS : Turns S S' p)
    (hrs : S'.responses = S.responses ++ rs)
    (hown : y.crash = none → ({ s.hosts p with process := y } : Host n).Lives K σ (u + 1) S' p) :
    Matches K σ (u + 1) S' { s.setHost p ((s.hosts p).goesOn e y) with
      net := net, responses := s.responses ++ rs } :=
  ⟨hnet, hS.clerks.trans h.clerks, hS.calls.trans h.calls, hS.requests.trans h.requests,
    by rw [hrs, h.responses], hS.length.trans h.dispatched,
    h.setHost hc.others hS.others hS.spares ⟨hc.raft, hc.incarnation.trans (h.hosts p).cluster,
      hS.incarnation.trans (h.hosts p).service, fun ha => (hown ha.2).congr rfl rfl rfl⟩⟩

/-- The same, for an event that needs nothing from outside. -/
theorem Deployment.Matches.ran (h : s.Matches K σ u S) {e : Process.Event n}
    (hc : AtServer (σ.run u) (σ.run (u + 1)) p y.raft)
    (hnet : (σ.run (u + 1)).net =
      s.packets ++ ((s.hosts p).process.sent e).map (⟨·, (s.hosts p).incarnation⟩))
    (hS : Turns S S' p) (hrs : S'.responses = S.responses ++ (s.hosts p).answers e y)
    (hown : y.crash = none → ({ s.hosts p with process := y } : Host n).Lives K σ (u + 1) S' p) :
    (s.ran p e y).Matches K σ (u + 1) S' := by
  refine h.step hc ?_ hS hrs hown
  rw [hnet, List.map_append, Host.packet_parcels]
  rfl

/-- What goes on in a process that runs. -/
theorem Host.Lives.step (h : x.Lives K σ u S p) (hS : Turns S S' p)
    (hcl : ((σ.run (u + 1)).nodes p).status = .running) (hsv : (S'.nodes p).status = .running)
    (hinv : y.Inv) (hlen : y.handlers.length = x.process.handlers.length)
    (hA : y.Atomic K (S'.nodes p).kv (x.handlers S'.handlers))
    (hst : Streams y.raft.applyCh (S'.nodes p).applied.length y.apply)
    (hm : ∀ m, y.msg = some m → ReadAt σ (u + 1) p y.raft m) :
    ({ x with process := y } : Host n).Lives K σ (u + 1) S' p := by
  refine ⟨hcl, hsv, hinv, hA, hst, hm, h.length.trans hlen.symm, h.nodup, fun task ht => ?_⟩
  obtain ⟨hd, hk, h₁, h₂, h₃, h₄⟩ := h.own task ht
  obtain ⟨hd', hk', h₁', h₂', h₃', h₄'⟩ := hS.handlers _ hd hk
  exact ⟨hd', hk', h₁'.trans h₁, h₂'.trans h₂, h₃'.trans h₃, h₄'.trans h₄⟩

/-! ## The cluster -/

theorem atServer_refl (c : Cluster n Op) (p : Fin n) : AtServer c c p (c.nodes p).raft :=
  ⟨fun _ _ => rfl, rfl, rfl⟩

theorem atServer_setNode (c : Cluster n Op) {z : DistSystem.Node n Op}
    (hz : z.incarnation = (c.nodes p).incarnation) : AtServer c (c.setNode p z) p z.raft := by
  refine ⟨fun q hq => Function.update_of_ne hq _ _, ?_, ?_⟩
  · simp [Cluster.setNode]
  · simpa [Cluster.setNode] using hz

/-- The server that an iteration of the event loop leaves, also by a panic. -/
def final : Go n Op (Raft n Op × List (Message n Op)) → Raft n Op
  | .ok (r, _) => r
  | .error e => e.raft

theorem atServer_finish (c : Cluster n Op) (p : Fin n) (i : ℕ)
    (z : Go n Op (Raft n Op × List (Message n Op))) :
    AtServer c (c.finish p i z) p (final z) ∧
      (c.finish p i z).net = c.net ++ (Process.outbox z).map (⟨·, i⟩) := by
  rcases z with e | ⟨r, msgs⟩
  · exact ⟨atServer_setNode c rfl, by simp [Cluster.finish, Cluster.setNode, Process.outbox]⟩
  · obtain ⟨h₁, h₂, h₃⟩ := atServer_setNode (p := p) c (z := { c.nodes p with raft := r }) rfl
    exact ⟨⟨h₁, h₂, h₃⟩, rfl⟩

theorem status_finish_ok (c : Cluster n Op) (p : Fin n) (i : ℕ) (r : Raft n Op)
    (msgs : List (Message n Op)) :
    ((c.finish p i (.ok (r, msgs))).nodes p).status = (c.nodes p).status := by
  simp [Cluster.finish, Cluster.setNode, Cluster.send]

theorem handled_raft (s : Process n) (z : Go n Op (Raft n Op × List (Message n Op))) :
    (s.handled z).raft = final z := by
  rcases z with e | ⟨r, msgs⟩
  · rfl
  · rfl

/-! ## The service -/

/-- A handler has taken its turn. -/
def Service.turned (S : Service n) (k : ℕ) (hd : Handler n) (z : Node) : Service n :=
  { (S.setNode hd.server z).setHandler k hd with responses := S.responses ++ hd.response }

/-- How a handler goes on when `AppendLog` has returned true. -/
def Args.accepted : Args → Phase
  | .get _ => .read
  | .putAppend _ => .answered (.putAppend ⟨false, some .ok⟩)

/-- How it goes on with what it got from its channel. -/
def Args.receiving (args : Args) (op : Op) : Phase :=
  if op = args.entry then args.accepted else .answered args.refused

theorem handlerAt_eq {k : ℕ} {hd : Handler n} {phase : Phase} (hk : S.handlers[k]? = some hd)
    (hl : S.Live hd) (hp : hd.phase = phase) : S.handlerAt k phase = some hd := by
  unfold Service.handlerAt
  rw [hk]
  exact if_pos ⟨hl, hp⟩

section Exec

variable {k : ℕ} {hd : Handler n} (hk : S.handlers[k]? = some hd) (hl : S.Live hd)

include hk hl

theorem exec_start (hp : hd.phase = .start) (i : ℕ) : S.exec (.start k (some i)) =
    S.turned k { hd with index := i, phase := .lookup } (S.nodes hd.server) := by
  simp [Service.exec, handlerAt_eq hk hl hp, Service.turned, Handler.response, Service.setHandler]

theorem exec_start_none (hp : hd.phase = .start) : S.exec (.start k none) =
    S.turned k { hd with phase := .answered hd.args.refused } (S.nodes hd.server) := by
  simp [Service.exec, handlerAt_eq hk hl hp, Service.turned, Handler.response, Service.setHandler,
    Service.answer]

theorem exec_lookup (hp : hd.phase = .lookup) : S.exec (.lookup k) =
    S.turned k { hd with phase := .wait }
      { S.nodes hd.server with kv := (S.nodes hd.server).kv.lookup hd.index } := by
  simp [Service.exec, handlerAt_eq hk hl hp, Service.turned, Handler.response, Service.setHandler,
    Service.setNode]

theorem exec_timeout (hp : hd.phase = .wait) : S.exec (.timeout k) =
    S.turned k { hd with phase := .answered hd.args.refused } (S.nodes hd.server) := by
  simp [Service.exec, handlerAt_eq hk hl hp, Service.turned, Handler.response, Service.setHandler,
    Service.answer]

theorem exec_read {args : GetArgs} (hp : hd.phase = .read) (ha : hd.args = .get args) :
    S.exec (.read k) = S.turned k
      { hd with phase := .answered (.get ((S.nodes hd.server).kv.get args).1) }
      { S.nodes hd.server with kv := ((S.nodes hd.server).kv.get args).2 } := by
  have hreader : S.reader k = some (hd, args) := by
    unfold Service.reader
    simp only [handlerAt_eq hk hl hp, ha]
  simp [Service.exec, hreader, Service.turned, Handler.response, Service.setHandler,
    Service.answer, Service.setNode]

theorem exec_receive {op : Op} {kv : RaftKV} (hp : hd.phase = .wait)
    (hr : (S.nodes hd.server).kv.receive hd.index = some (op, kv)) :
    S.exec (.receive k) = S.turned k
      { hd with phase := hd.args.receiving op } { S.nodes hd.server with kv := kv } := by
  simp only [Service.exec, handlerAt_eq hk hl hp, hr, Service.received, Args.receiving]
  split_ifs with hop
  · cases ha : hd.args with
    | get args =>
      simp [Service.turned, Handler.response, Service.setHandler, Service.setNode, Args.accepted]
    | putAppend args =>
      simp [Service.turned, Handler.response, Service.setHandler, Service.answer, Service.setNode,
        Args.accepted, ha]
  · simp [Service.turned, Handler.response, Service.setHandler, Service.answer, Service.setNode]

end Exec

end

end DistSystem.KV
