import DistSystem.Proofs.ConfigWiring
import DistSystem.Proofs.RPCStep
import DistSystem.Proofs.RaftCalls

/-!
# What a step of the process does

Only the tester changes the wiring (`Moves.wiring`), so its functions can rely on what they have
set up, however the servers and the network go on in between.
-/

namespace DistSystem

open Interleaving LabRPC

variable {n : ℕ} {C : Type}

namespace Config

variable {s s' : Config n C} {e : Config.Event n C}

/-- What a step can do. -/
inductive Moves (s : Config n C) : Config.Event n C → Config n C → Prop where
  | panic {e : Config.Event n C} {inbox : List (Item n C)} (hin : inbox.Sublist s.inbox)
      (msg : String) : Moves s e { s with inbox := inbox, panicked := some msg }
  | command (cmd : Command n) (h : s.script = []) :
      Moves s (.command cmd) { s with script := s.program cmd }
  | operate {op : Op n} {ops : List (Op n)} {s' : Config n C} (hs : s.script = op :: ops)
      (h : { s with script := ops }.operate op = some s') : Moves s .operate s'
  | tick {q rnd : ℕ} {r r' : Raft n C} {msgs : List (Message n C)} (hq : s.ready q = some r)
      (h : r.tick rnd = .ok (r', msgs)) :
      Moves s (.tick q rnd) (s.post q r' msgs)
  | start {q : ℕ} {command : Option C} {r r' : Raft n C} {msgs : List (Message n C)}
      {reply : Raft.StartReply} (hq : s.ready q = some r)
      (h : r.handleStart command = .ok (r', msgs, reply)) :
      Moves s (.start q command) (s.post q r' msgs)
  | stateMachine {q : ℕ} {x : Instance n C} {r' : Raft n C} (hq : s.instances[q]? = some x)
      (h : x.raft.stateMachine = .ok r') : Moves s (.stateMachine q) (s.setRaft q r')
  | call {g : ℕ} {d : Draft n C} {x : Instance n C}
      {net : Network ℕ (Fin n) (Item n C) (Message n C)} (hg : s.outbox[g]? = some d)
      (hx : s.instances[d.item.inst]? = some x)
      (h : Network.step (.call ⟨x.ends d.item.msg.dst, d.item.msg.svcMeth, d.encode x.memory⟩)
        s.net = some net) :
      Moves s (.call g) { s with outbox := s.outbox.eraseIdx g, net := net }
  | enter {k : ℕ} {net : Network ℕ (Fin n) (Item n C) (Message n C)}
      (h : Network.step (.enter k) s.net = some net) : Moves s (.enter k) { s with net := net }
  | abort {k : ℕ} {net : Network ℕ (Fin n) (Item n C) (Message n C)}
      (h : Network.step (.abort k) s.net = some net) : Moves s (.abort k) { s with net := net }
  | proceed {e : Config.Event n C} {k : ℕ} {x : LabRPC.Step (Message n C)}
      {net : Network ℕ (Fin n) (Item n C) (Message n C)} (hx : ∀ resp, x ≠ .ret resp)
      (h : Network.step (.proceed k x) s.net = some net) : Moves s e { s with net := net }
  | handle {k rnd server q : ℕ} {req : ReqMsg ℕ (Item n C)} {st : Stage (Fin n) (Message n C)}
      {r r' : Raft n C} {resp : Message n C} {rest : List (Message n C)}
      {net : Network ℕ (Fin n) (Item n C) (Message n C)}
      (hc : s.net.calls[k]? = some ⟨req, st, .running server⟩) (hs : s.receivers[server]? = some q)
      (hq : s.ready q = some r) (hr : r.step rnd req.args.msg = .ok (r', resp :: rest))
      (h : Network.step (.proceed k (.ret resp)) s.net = some net) :
      Moves s (.handle k rnd) { s.setRaft q r' with net := net }
  | answer {k : ℕ} {req : ReqMsg ℕ (Item n C)} {resp : Message n C} {hd : Handler (Message n C)}
      {net : Network ℕ (Fin n) (Item n C) (Message n C)}
      (hc : s.net.calls[k]? = some ⟨req, .replying (some resp), hd⟩)
      (h : Network.step (.proceed k .reply) s.net = some net) :
      Moves s (.reply k) { s with inbox := s.inbox ++ [⟨req.args.inst, resp⟩], net := net }
  | respond {g rnd : ℕ} {it : Item n C} {r r' : Raft n C} {msgs : List (Message n C)}
      (hg : s.inbox[g]? = some it) (hq : s.ready it.inst = some r)
      (h : r.step rnd it.msg = .ok (r', msgs)) :
      Moves s (.respond g rnd) ({ s with inbox := s.inbox.eraseIdx g }.post it.inst r' msgs)

theorem onNet_eq_some {e : LabRPC.Event ℕ (Fin n) (Item n C) (Message n C)}
    (h : s.onNet e = some s') :
    ∃ net, Network.step e s.net = some net ∧ s' = { s with net := net } := by
  obtain ⟨net, hnet, rfl⟩ := Option.map_eq_some_iff.mp h
  exact ⟨net, hnet, rfl⟩

theorem moves_of_step (h : step e s = some s') : s.Moves e s' := by
  unfold step at h
  split_ifs at h with hup
  cases e with
  | command cmd =>
    simp only [next] at h
    split_ifs at h with hs
    obtain rfl := Option.some.inj h
    exact .command cmd hs
  | operate =>
    simp only [next] at h
    split at h
    · cases h
    · exact .operate ‹_› h
  | tick q rnd =>
    obtain ⟨r, hq, rfl⟩ := Option.map_eq_some_iff.mp h
    rcases ht : r.tick rnd with er | ⟨r', msgs⟩
    · exact .panic (List.Sublist.refl _) _
    · exact .tick hq ht
  | start q command =>
    obtain ⟨r, hq, rfl⟩ := Option.map_eq_some_iff.mp h
    rcases ht : r.handleStart command with er | ⟨r', msgs, reply⟩
    · exact .panic (List.Sublist.refl _) _
    · exact .start hq ht
  | stateMachine q =>
    simp only [next] at h
    split at h
    · cases h
    · split at h
      · obtain rfl := Option.some.inj h
        exact .stateMachine ‹_› ‹_›
      · obtain rfl := Option.some.inj h
        exact .panic (List.Sublist.refl _) _
  | call g =>
    simp only [next] at h
    split at h
    · cases h
    · split at h
      · cases h
      · obtain ⟨net, hnet, rfl⟩ := onNet_eq_some h
        exact .call ‹_› ‹_› hnet
  | enter k =>
    obtain ⟨net, hnet, rfl⟩ := onNet_eq_some h
    exact .enter hnet
  | abort k =>
    obtain ⟨net, hnet, rfl⟩ := onNet_eq_some h
    exact .abort hnet
  | proceed k x =>
    simp only [next] at h
    split at h
    · cases h
    · cases h
    · rename_i hret hreply
      obtain ⟨net, hnet, rfl⟩ := onNet_eq_some h
      exact .proceed hret hnet
  | handle k rnd =>
    simp only [next] at h
    split at h
    · split at h
      · cases h
      · split at h
        · cases h
        · split at h
          · obtain ⟨net, hnet, rfl⟩ := onNet_eq_some h
            exact .handle ‹_› ‹_› ‹_› ‹_› hnet
          · cases h
          · obtain rfl := Option.some.inj h
            exact .panic (List.Sublist.refl _) _
    · cases h
  | reply k =>
    simp only [next] at h
    split at h
    · obtain ⟨net, hnet, rfl⟩ := onNet_eq_some h
      exact .answer ‹_› hnet
    · obtain ⟨net, hnet, rfl⟩ := onNet_eq_some h
      exact .proceed (by simp) hnet
  | respond g rnd =>
    simp only [next] at h
    split at h
    · cases h
    · obtain ⟨r, hq, rfl⟩ := Option.map_eq_some_iff.mp h
      rename_i it hg
      rcases ht : r.step rnd it.msg with er | ⟨r', msgs⟩
      · exact .panic (List.eraseIdx_sublist _ _) _
      · exact .respond hg hq ht

/-! ## The wiring -/

/-- A step of a call changes no wires. -/
structure SameWires (net net' : Network ℕ (Fin n) (Item n C) (Message n C)) : Prop where
  ends : net'.ends = net.ends
  enabled : net'.enabled = net.enabled
  connections : net'.connections = net.connections
  servers : net'.servers = net.servers
  objects : net'.objects.length = net.objects.length

section

variable {net net' : Network ℕ (Fin n) (Item n C) (Message n C)} {k : ℕ}

theorem sameWires_call {req : ReqMsg ℕ (Item n C)} (h : Network.step (.call req) net = some net') :
    SameWires net net' := by
  obtain ⟨-, h⟩ := Network.next_of_step h
  obtain rfl := Option.some.inj h
  exact ⟨rfl, rfl, rfl, rfl, rfl⟩

theorem sameWires_enter (h : Network.step (.enter k) net = some net') : SameWires net net' := by
  obtain ⟨req, st, server, rs, rs', -, -, -, rfl⟩ :=
    Network.of_next_enter (Network.next_of_step h).2
  exact ⟨rfl, rfl, rfl, rfl, List.length_set⟩

theorem sameWires_abort (h : Network.step (.abort k) net = some net') : SameWires net net' := by
  obtain ⟨crash, rfl⟩ := Network.of_next_abort (Network.next_of_step h).2
  exact ⟨rfl, rfl, rfl, rfl, rfl⟩

theorem sameWires_proceed {x : LabRPC.Step (Message n C)}
    (h : Network.step (.proceed k x) net = some net') : SameWires net net' := by
  obtain ⟨c, c', -, -, rfl⟩ := Network.of_next_proceed (Network.next_of_step h).2
  exact ⟨rfl, rfl, rfl, rfl, rfl⟩

end

theorem ready_eq_some {q : ℕ} {r : Raft n C} (h : s.ready q = some r) :
    ∃ x, s.instances[q]? = some x ∧ x.raft = r ∧ r.commitc = none := by
  unfold ready at h
  split at h
  · cases h
  · split_ifs at h with hc
    obtain rfl := Option.some.inj h
    exact ⟨_, ‹_›, rfl, hc⟩

/-- An instance stays the server that it is. -/
theorem setRaft_instances {q : ℕ} {x : Instance n C} {r : Raft n C}
    (hx : s.instances[q]? = some x) (hr : r.me = x.raft.me) :
    ((s.setRaft q r).instances.map fun x => (x.raft.me, x.ends)) =
      s.instances.map fun x => (x.raft.me, x.ends) := by
  refine List.ext_getElem? fun p => ?_
  simp only [setRaft, List.getElem?_map, List.getElem?_modify]
  rcases hp : s.instances[p]? with _ | y
  · rfl
  · by_cases hqp : q = p
    · subst hqp
      obtain rfl := Option.some.inj (hx.symm.trans hp)
      simp [hr]
    · simp [hqp]

theorem SameWires.wiring {net : Network ℕ (Fin n) (Item n C) (Message n C)}
    (h : SameWires s.net net) (inbox : List (Item n C)) (outbox : List (Draft n C)) :
    wiring { s with inbox := inbox, outbox := outbox, net := net } = s.wiring := by
  simp only [Config.wiring, h.ends, h.enabled, h.connections, h.servers]

theorem wiring_setRaft {q : ℕ} {x : Instance n C} {r : Raft n C}
    (hx : s.instances[q]? = some x) (hr : r.me = x.raft.me) :
    (s.setRaft q r).wiring = s.wiring := by
  unfold Config.wiring
  rw [setRaft_instances hx hr]
  rfl

theorem wiring_of_ready {q : ℕ} {r r' : Raft n C} (hq : s.ready q = some r) (hr : r'.me = r.me) :
    (s.setRaft q r').wiring = s.wiring := by
  obtain ⟨x, hx, rfl, -⟩ := ready_eq_some hq
  exact wiring_setRaft hx hr

/-- The process has ended. -/
def Gone (s : Config n C) : Prop := s.panicked ≠ none ∨ s.net.crash ≠ none

theorem not_gone_of_step (h : step e s = some s') : ¬ s.Gone := by
  unfold step at h
  split_ifs at h with hup
  rintro (hp | hc)
  · exact hp hup.1
  · exact hc hup.2

/-- What an operation of the tester can do. -/
inductive Operates (s : Config n C) : Op n → Config n C → Prop where
  | fatal {op : Op n} {crash : Option Crash} {panicked : Option String}
      (h : panicked ≠ none ∨ crash ≠ none) :
      Operates s op { s with panicked := panicked, net := { s.net with crash := crash } }
  | setConnected (i : Fin n) (yes : Bool) :
      Operates s (.setConnected i yes) { s with connected := Function.update s.connected i yes }
  | enable {i : Fin n} {names : Fin n → ℕ} (hn : s.endnames i = some names) (j : Fin n) (b : Bool) :
      Operates s (.enable i j b) { s with
        net := { s.net with enabled := Function.update s.net.enabled (names j) b } }
  | deleteServer (i : Fin n) : Operates s (.deleteServer i) { s with
      net := { s.net with servers := Function.update s.net.servers i none } }
  | absent {i : Fin n} (h : ((s.rafts i).bind fun q => s.instances[q]?) = none) :
      Operates s (.kill i) s
  | kill {i : Fin n} {q : ℕ} {x : Instance n C} (hq : s.rafts i = some q)
      (hx : s.instances[q]? = some x) :
      Operates s (.kill i) { s with
        saved := Function.update s.saved i x.raft.persister
        rafts := Function.update s.rafts i none }
  | name (i : Fin n) (names : Fin n → ℕ) : Operates s (.name i names)
      { s with endnames := Function.update s.endnames i (some names) }
  | makeEnd {i : Fin n} {names : Fin n → ℕ} (hn : s.endnames i = some names) {j : Fin n}
      (hend : s.net.ends (names j) = false) :
      Operates s (.makeEnd i j) { s with
        net := { s.net with
          ends := Function.update s.net.ends (names j) true
          enabled := Function.update s.net.enabled (names j) false
          connections := Function.update s.net.connections (names j) none } }
  | connect {i : Fin n} {names : Fin n → ℕ} (hn : s.endnames i = some names) (j : Fin n) :
      Operates s (.connect i j) { s with
        net := { s.net with
          connections := Function.update s.net.connections (names j) (some j) } }
  | make {i : Fin n} {names : Fin n → ℕ} (hn : s.endnames i = some names) (rnd : ℕ)
      (spare : ℕ → ℕ) :
      Operates s (.make i rnd spare) { s with
        instances := s.instances ++ [⟨.make i (s.saved i) rnd, names,
          (Memory.empty spare).alloc (Raft.make i (s.saved i) rnd).log⟩]
        rafts := Function.update s.rafts i (some s.instances.length) }
  | addServer {i : Fin n} {q : ℕ} (hq : s.rafts i = some q) (rs : Server) :
      Operates s (.addServer i) { s with
        receivers := s.receivers ++ [q]
        net := { s.net with
          objects := s.net.objects ++ [rs]
          servers := Function.update s.net.servers i (some s.net.objects.length) } }
  | reliable (yes : Bool) :
      Operates s (.reliable yes) { s with net := { s.net with reliable := yes } }
  | longReordering (yes : Bool) :
      Operates s (.longReordering yes) { s with net := { s.net with longReordering := yes } }

theorem operates_of_operate {op : Op n} (h : s.operate op = some s') : s.Operates op s' := by
  have hpanic : ∀ msg, s.Operates op (s.panic msg) := fun msg =>
    Operates.fatal (s := s) (.inl (Option.some_ne_none msg))
  cases op with
  | setConnected i yes =>
    obtain rfl := Option.some.inj h
    exact .setConnected i yes
  | enable i j b =>
    simp only [operate] at h
    split at h
    · exact Option.some.inj h ▸ hpanic _
    · obtain ⟨net, hnet, rfl⟩ := onNet_eq_some h
      obtain rfl := Option.some.inj (Network.next_of_step hnet).2
      exact .enable ‹_› j b
  | deleteServer i =>
    obtain ⟨net, hnet, rfl⟩ := onNet_eq_some h
    obtain rfl := Option.some.inj (Network.next_of_step hnet).2
    exact .deleteServer i
  | kill i =>
    simp only [operate] at h
    split at h
    · obtain rfl := Option.some.inj h
      exact .absent ‹_›
    · obtain rfl := Option.some.inj h
      obtain ⟨q, hq, hx⟩ := Option.bind_eq_some_iff.mp ‹_›
      exact .kill hq hx
  | name i endnames =>
    obtain rfl := Option.some.inj h
    exact .name i endnames
  | makeEnd i j =>
    simp only [operate] at h
    split at h
    · exact Option.some.inj h ▸ hpanic _
    · obtain ⟨net, hnet, rfl⟩ := onNet_eq_some h
      rcases Network.of_next_makeEnd (Network.next_of_step hnet).2 with ⟨crash, rfl⟩ | ⟨hend, rfl⟩
      · exact .fatal (.inr (Option.some_ne_none crash))
      · exact .makeEnd ‹_› hend
  | connect i j =>
    simp only [operate] at h
    split at h
    · exact Option.some.inj h ▸ hpanic _
    · obtain ⟨net, hnet, rfl⟩ := onNet_eq_some h
      obtain rfl := Option.some.inj (Network.next_of_step hnet).2
      exact .connect ‹_› j
  | make i rnd spare =>
    simp only [operate] at h
    split at h
    · cases h
    · obtain rfl := Option.some.inj h
      exact .make ‹_› rnd spare
  | addServer i =>
    simp only [operate] at h
    split at h
    · rename_i q s₁ hq hs₁
      obtain ⟨net, hnet, rfl⟩ := onNet_eq_some hs₁
      obtain rfl := Option.some.inj (Network.next_of_step hnet).2
      obtain ⟨net, hnet, rfl⟩ := onNet_eq_some h
      obtain ⟨-, rfl⟩ := Network.of_next_addServer (Network.next_of_step hnet).2
      exact .addServer hq _
    · cases h
  | reliable yes =>
    obtain ⟨net, hnet, rfl⟩ := onNet_eq_some h
    obtain rfl := Option.some.inj (Network.next_of_step hnet).2
    exact .reliable yes
  | longReordering yes =>
    obtain ⟨net, hnet, rfl⟩ := onNet_eq_some h
    obtain rfl := Option.some.inj (Network.next_of_step hnet).2
    exact .longReordering yes

theorem Operates.script {op : Op n} (h : s.Operates op s') : s'.script = s.script := by
  cases h <;> rfl

theorem wiring_getElem? {q : ℕ} {x : Instance n C} (h : s.instances[q]? = some x) :
    s.wiring.instances[q]? = some (x.raft.me, x.ends) := by
  simp [wiring, h]

theorem of_wiring_getElem? {q : ℕ} {i : Fin n} {ends : Fin n → ℕ}
    (h : s.wiring.instances[q]? = some (i, ends)) :
    ∃ x, s.instances[q]? = some x ∧ x.raft.me = i ∧ x.ends = ends := by
  simp only [wiring, List.getElem?_map, Option.map_eq_some_iff, Prod.mk.injEq] at h
  exact h

/-- An operation does to the wiring what it should, or ends the process. -/
theorem Operates.wiring {op : Op n} (h : s.Operates op s') (hv : s.wiring.Sane)
    (hlen : s.receivers.length = s.net.objects.length) :
    s'.receivers.length = s'.net.objects.length ∧
      (s'.Gone ∧ s'.wiring = s.wiring ∨ Wiring.operate op s.wiring = some s'.wiring) := by
  cases h with
  | fatal h => exact ⟨hlen, .inl ⟨h, rfl⟩⟩
  | setConnected | deleteServer | kill | name | reliable | longReordering =>
    exact ⟨hlen, .inr rfl⟩
  | absent h =>
    rename_i i
    refine ⟨hlen, .inr (congrArg some ?_)⟩
    have hi : s.wiring.rafts i = none := by
      rcases hq : s.wiring.rafts i with _ | q
      · rfl
      · obtain ⟨ends, hq', -⟩ := hv.current i q hq
        obtain ⟨x, hx, -, -⟩ := of_wiring_getElem? hq'
        have hq : s.rafts i = some q := hq
        simp [hq, hx] at h
    rw [← hi, Function.update_eq_self]
  | enable hn | connect hn =>
    refine ⟨hlen, .inr ?_⟩
    simp only [Wiring.operate, Config.wiring, hn, Option.map_some]
  | makeEnd hn hend =>
    refine ⟨hlen, .inr ?_⟩
    simp only [Wiring.operate, Config.wiring, hn, hend]
    rfl
  | make hn rnd spare =>
    refine ⟨hlen, .inr ?_⟩
    simp only [Wiring.operate, Config.wiring, hn, Option.map_some, List.map_append, List.map_cons,
      List.map_nil, make_me, List.length_map]
  | addServer hq rs =>
    refine ⟨by simp [hlen], .inr ?_⟩
    simp only [Wiring.operate, Config.wiring, hq, Option.map_some, hlen]

/-- Only the tester changes the wiring, and what it has left to do. -/
theorem Moves.wiring (h : s.Moves e s') :
    (s'.wiring = s.wiring ∧ s'.script = s.script ∧
      s'.net.objects.length = s.net.objects.length) ∨
    (∃ cmd, e = .command cmd ∧ s.script = [] ∧ s' = { s with script := s.program cmd }) ∨
    ∃ op ops, s.script = op :: ops ∧ { s with script := ops }.Operates op s' := by
  cases h with
  | command cmd hs => exact .inr (.inl ⟨cmd, rfl, hs, rfl⟩)
  | operate hs hop => exact .inr (.inr ⟨_, _, hs, operates_of_operate hop⟩)
  | panic => exact .inl ⟨rfl, rfl, rfl⟩
  | tick hq ht => exact .inl ⟨wiring_of_ready hq (Raft.tick_requests ht).me, rfl, rfl⟩
  | start hq ht => exact .inl ⟨wiring_of_ready hq (Raft.handleStart_requests ht).me, rfl, rfl⟩
  | stateMachine hx hr => exact .inl ⟨wiring_setRaft hx (Raft.stateMachine_me hr), rfl, rfl⟩
  | call hg hx hnet =>
    have hw := sameWires_call hnet
    exact .inl ⟨hw.wiring s.inbox _, rfl, hw.objects⟩
  | enter hnet =>
    have hw := sameWires_enter hnet
    exact .inl ⟨hw.wiring s.inbox s.outbox, rfl, hw.objects⟩
  | abort hnet =>
    have hw := sameWires_abort hnet
    exact .inl ⟨hw.wiring s.inbox s.outbox, rfl, hw.objects⟩
  | proceed _ hnet =>
    have hw := sameWires_proceed hnet
    exact .inl ⟨hw.wiring s.inbox s.outbox, rfl, hw.objects⟩
  | handle hc hs hq hr hnet =>
    have hw := sameWires_proceed hnet
    refine .inl ⟨?_, rfl, hw.objects⟩
    rw [← wiring_of_ready hq (Raft.step_me hr)]
    exact SameWires.wiring (s := s.setRaft _ _) hw s.inbox s.outbox
  | answer hc hnet =>
    have hw := sameWires_proceed hnet
    exact .inl ⟨hw.wiring _ s.outbox, rfl, hw.objects⟩
  | respond hg hq hr => exact .inl ⟨wiring_of_ready hq (Raft.step_me hr), rfl, rfl⟩

/-! ## Runs -/

/-- A server that the tester connects is there. -/
def Event.fits (s : Config n C) : Config.Event n C → Bool
  | .command (.connect i) => (s.rafts i).isSome
  | _ => true

/-- The tester connects only servers that it has started and not crashed since. -/
def Orderly (t : List (Config.Event n C)) : Prop :=
  AtEach step init (fun _ s e => e.fits s = true) t

/-- A request that is encoded in this step still has the entries it was built with. -/
def Intact (s : Config n C) : Config.Event n C → Prop
  | .call g => ∀ d ∈ s.outbox[g]?, ∀ x ∈ s.instances[d.item.inst]?,
      (d.encode x.memory).msg = d.item.msg
  | _ => True

/-- Every request is encoded as it was built. -/
def Unaltered (t : List (Config.Event n C)) : Prop := AtEach step init (fun _ s e => s.Intact e) t

structure Tested (s : Config n C) : Prop where
  sane : s.wiring.Sane
  keeps : s.Gone ∨ Wiring.Keeps Wiring.Settled s.script s.wiring
  objects : s.receivers.length = s.net.objects.length

theorem tested_init : (init : Config n C).Tested where
  sane := by
    refine ⟨?_, ?_, ?_, ?_, ?_⟩ <;> simp [wiring, init, Network.makeNetwork]
  keeps := .inr (by
    refine ⟨?_, ?_, ?_, ?_⟩ <;>
      simp [wiring, init, Network.makeNetwork, Wiring.Named, Wiring.on])
  objects := rfl

theorem Tested.step (hs : s.Tested) (h : step e s = some s') (he : e.fits s = true) :
    s'.Tested := by
  have hkeeps := hs.keeps.resolve_left (not_gone_of_step h)
  rcases (moves_of_step h).wiring with ⟨hw, hscript, hlen⟩ | ⟨cmd, rfl, hnil, rfl⟩ |
    ⟨op, ops, hscript, hop⟩
  · have hrec : s'.receivers = s.receivers := congrArg Wiring.receivers hw
    refine ⟨hw ▸ hs.sane, .inr ?_, ?_⟩
    · rw [hw, hscript]
      exact hkeeps
    · rw [hrec, hlen, hs.objects]
  · have hset : s.wiring.Settled := by
      rw [hnil] at hkeeps
      exact hkeeps
    refine ⟨hs.sane, .inr ?_, hs.objects⟩
    refine keeps_program hs.sane hset fun i hi => ?_
    subst hi
    exact Option.isSome_iff_ne_none.mp he
  · obtain ⟨hlen, ⟨hgone, hw⟩ | hw⟩ := hop.wiring hs.sane hs.objects
    · exact ⟨hw ▸ hs.sane, .inl hgone, hlen⟩
    · rw [hscript] at hkeeps
      obtain ⟨hsane, hrest⟩ := hkeeps.2 _ hw
      refine ⟨hsane, .inr ?_, hlen⟩
      rwa [hop.script]

theorem tested_of_runs {t : List (Config.Event n C)} (h : runs step init t = some s)
    (ht : Orderly t) : s.Tested := by
  refine runs_induction (P := fun t s => Orderly t → s.Tested) (fun _ => tested_init) ?_ h ht
  intro t s₁ e s₂ h₁ ih h₂ ht
  obtain ⟨ht, he⟩ := (atEach_concat h₁).mp ht
  exact (ih ht).step h₂ he

/-- The tester is between two functions. -/
def Idle (s : Config n C) : Prop := s.script = [] ∧ ¬ s.Gone

theorem Tested.settled (hs : s.Tested) (hidle : s.Idle) : s.wiring.Settled := by
  have hkeeps := hs.keeps.resolve_left hidle.2
  rw [hidle.1] at hkeeps
  exact hkeeps

/-- Between two functions of the tester a call of a server that is there finds the server that it
is for just if both of them are connected, and then it is the current instance; the calls of an
instance that is not current find none, at any time. -/
theorem partition {t : List (Config.Event n C)} (h : runs step init t = some s) (ht : Orderly t)
    {q : ℕ} {x : Instance n C} (hx : s.instances[q]? = some x) (j : Fin n) :
    (s.rafts x.raft.me = some q → s.Idle →
      ((∃ rt, s.net.readEndnameInfo (x.ends j) = some rt) ↔
        s.connected x.raft.me = true ∧ s.connected j = true)) ∧
    (∀ rt, s.net.readEndnameInfo (x.ends j) = some rt →
      s.rafts x.raft.me = some q ∧ rt.servername = j ∧ s.receivers[rt.server]? = s.rafts j ∧
        s.rafts j ≠ none) := by
  have htested := tested_of_runs h ht
  have hx' := wiring_getElem? hx
  have hconn : s.net.connections (x.ends j) = some j := (htested.sane.wired q _ _ hx' j).2
  constructor
  · intro hcur hidle
    have hset := htested.settled hidle
    obtain ⟨ends, hends, hn⟩ := htested.sane.current _ q hcur
    obtain ⟨-, rfl⟩ := Prod.mk.inj (Option.some.inj (hx'.symm.trans hends))
    have hon : s.net.enabled (x.ends j) = (s.connected x.raft.me && s.connected j) := by
      have hon := hset.on x.raft.me j
      rwa [Wiring.on, hn] at hon
    constructor
    · rintro ⟨rt, hrt⟩
      rw [(Network.readEndnameInfo_eq_some hrt).1] at hon
      simpa using hon.symm
    · rintro ⟨hi, hj⟩
      obtain ⟨p, hp⟩ := Option.ne_none_iff_exists'.mp (hset.listed j (hset.attached j hj))
      have hp : s.net.servers j = some p := hp
      simp only [Network.readEndnameInfo, hon, hi, hj, hconn, hp]
      exact ⟨_, rfl⟩
  · intro rt hrt
    obtain ⟨hen, hname, hserver⟩ := Network.readEndnameInfo_eq_some hrt
    obtain rfl := Option.some.inj (hname.symm.trans hconn)
    obtain ⟨p, hrecv, hp⟩ := htested.sane.served _ _ hserver
    refine ⟨?_, rfl, hrecv.trans hp.symm, ne_of_eq_of_ne hp (Option.some_ne_none p)⟩
    by_contra hcur
    exact Bool.false_ne_true ((htested.sane.off q _ _ hx' hcur _).symm.trans hen)

/-! ## A run -/

def p₀ : Fin 2 := ⟨0, Nat.zero_lt_two⟩

def p₁ : Fin 2 := ⟨1, Nat.one_lt_two⟩

/-- Arrays are as long as they have to be. -/
def noSpare (_ : ℕ) : ℕ := 0

/-- The tester gets through what it has left. -/
def operates (k : ℕ) : List (Config.Event 2 ℕ) := List.replicate k .operate

/-- The first message of the outbox is sent by the call `k`, which brings back the answer. -/
def roundTrip (k : ℕ) : List (Config.Event 2 ℕ) :=
  [.call 0, .proceed k .read, .proceed k .dispatch, .enter k, .handle k 0, .proceed k .recv,
    .proceed k .check, .proceed k .deliver, .reply k, .respond 0 0]

/-- Two servers are started and connected, the first is elected, both of them commit and apply a
command, and the first is started once more, while its old instance goes on to send a request. -/
def restarted : List (Config.Event 2 ℕ) := List.flatten
  [[.command (.start1 p₀ (fun j => j.val) 0 noSpare)], operates 10,
    [.command (.start1 p₁ (fun j => 2 + j.val) 0 noSpare)], operates 11,
    [.command (.connect p₀)], operates 3, [.command (.connect p₁)], operates 5,
    List.replicate 10 (.tick 0 0), roundTrip 0, roundTrip 1, [.start 0 (some 7)], roundTrip 2,
    [.stateMachine 0, .stateMachine 0], List.replicate 5 (.tick 0 0), roundTrip 3,
    [.stateMachine 1, .stateMachine 1], [.command (.start1 p₀ (fun j => 4 + j.val) 0 noSpare)],
    operates 14, List.replicate 5 (.tick 0 0), [.call 0, .proceed 4 .read],
    [.command (.connect p₀)], operates 5]

theorem orderly_restarted : Orderly restarted := atEach_of_take (by decide +kernel)

instance intactDecidable (s : Config 2 ℕ) : (e : Config.Event 2 ℕ) → Decidable (s.Intact e)
  | .call g => inferInstanceAs (Decidable (∀ d ∈ s.outbox[g]?, ∀ x ∈ _, _ = _))
  | .command _ | .operate | .tick _ _ | .start _ _ | .stateMachine _ | .enter _ | .abort _
  | .proceed _ _ | .handle _ _ | .reply _ | .respond _ _ => inferInstanceAs (Decidable True)

theorem unaltered_restarted : Unaltered restarted := atEach_of_take (by decide +kernel)

theorem of_restarted {P : Config 2 ℕ → Instance 2 ℕ → Instance 2 ℕ → Prop}
    [∀ s x y, Decidable (P s x y)]
    (h : (runs step init restarted).any (fun s => s.instances[2]?.any fun x =>
      s.instances[0]?.any fun y => P s x y) = true) :
    ∃ s x y, runs step init restarted = some s ∧ s.instances[2]? = some x ∧
      s.instances[0]? = some y ∧ P s x y := by
  obtain ⟨s, hs, h⟩ := (Option.any_eq_true _ _).mp h
  obtain ⟨x, hx, h⟩ := (Option.any_eq_true _ _).mp h
  obtain ⟨y, hy, h⟩ := (Option.any_eq_true _ _).mp h
  exact ⟨s, x, y, hs, hx, hy, of_decide_eq_true h⟩

/-- The new instance of the first server reaches the second, and the old one reaches none. -/
theorem partition_restarted : ∃ s x y, runs step init restarted = some s ∧
    s.instances[2]? = some x ∧ s.instances[0]? = some y ∧ s.Idle ∧
      (∃ rt, s.net.readEndnameInfo (x.ends p₁) = some rt) ∧
        ¬ ∃ rt, s.net.readEndnameInfo (y.ends p₁) = some rt := by
  obtain ⟨s, x, y, h, hx, hy, hcur, hold, hscript, hup, hcrash, hconn⟩ := of_restarted
    (P := fun s x y => s.rafts x.raft.me = some 2 ∧ s.rafts y.raft.me = some 2 ∧
      s.script.length = 0 ∧ s.panicked = none ∧ s.net.crash = none ∧
        s.connected x.raft.me = true ∧ s.connected p₁ = true) (by decide +kernel)
  have hidle : s.Idle := ⟨List.length_eq_zero_iff.mp hscript, by simp [Gone, hup, hcrash]⟩
  refine ⟨s, x, y, h, hx, hy, hidle,
    ((partition h orderly_restarted hx p₁).1 hcur hidle).mpr hconn, ?_⟩
  rintro ⟨rt, hrt⟩
  have hcur' := ((partition h orderly_restarted hy p₁).2 rt hrt).1
  rw [hold] at hcur'
  cases hcur'

end Config

end DistSystem
