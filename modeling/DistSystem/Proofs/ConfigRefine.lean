import Mathlib.Data.List.Flatten
import DistSystem.Proofs.ConfigMail
import DistSystem.Proofs.RaftSafety

/-!
# The process refines the cluster

The current instances of a process are a cluster: what they send and get, through the network and
past its checks, are the messages of a cluster that loses some (`Refines.moves`), as long as
requests are encoded as they were built. An instance that is not current can go on as it likes,
since nothing that it sends then gets out and no answer of its gets through, and what it persists is
not what the next one starts from. So no term has two leaders, and what two servers apply agrees.
-/

namespace DistSystem

open Interleaving LabRPC

variable {n : ℕ} {C : Type}

namespace Wiring

/-- What a call can still bring to a current instance. -/
def flight (v : Wiring n) (c : Call ℕ (Fin n) (Item n C) (Message n C)) : List (Item n C) :=
  match c.stage, c.handler with
  | .reading, _ =>
    if v.rafts c.req.args.msg.caller = some c.req.args.inst then [c.req.args] else []
  | .delaying _, _ => [c.req.args]
  | _, .dispatching _ => [c.req.args]
  | _, .running _ => [c.req.args]
  | .waiting rt, .returned _ resp =>
    if v.servers rt.servername = some rt.server then [⟨c.req.args.inst, resp⟩] else []
  | .checking rt (some resp), _ =>
    if v.servers rt.servername = some rt.server then [⟨c.req.args.inst, resp⟩] else []
  | .deciding _ resp, _ => [⟨c.req.args.inst, resp⟩]
  | .holding resp, _ => [⟨c.req.args.inst, resp⟩]
  | .replying (some resp), _ => [⟨c.req.args.inst, resp⟩]
  | _, _ => []

variable {v v' : Wiring n} {c c' : Call ℕ (Fin n) (Item n C) (Message n C)} {k : ℕ}

theorem inst_of_flight {it : Item n C} (h : it ∈ v.flight c) : it.inst = c.req.args.inst := by
  unfold flight at h
  split at h <;> simp_all

theorem Serves.lt {i : Fin n} {p : ℕ} (h : v.Serves i p) : p < v.receivers.length := by
  obtain ⟨q, ends, hp, -⟩ := h
  exact (List.getElem?_eq_some_iff.mp hp).1

theorem CallOk.inst_lt (hc : v.CallOk c) : c.req.args.inst < v.instances.length := by
  obtain ⟨ends, hq, -⟩ := hc.owner
  exact (List.getElem?_eq_some_iff.mp hq).1

/-- The instance of a method that runs is of the server the request is for. -/
theorem CallOk.running (hc : v.CallOk c) {p : ℕ} (hp : c.handler = .running p) :
    v.Serves c.req.args.msg.dst p := by
  have hcar := hc.carries
  rw [hp] at hcar
  rcases hst : c.stage with _ | _ | rt | rt | ⟨rt, _ | r⟩ | ⟨rt, r⟩ | r | ⟨_ | r⟩ | ⟨_ | r⟩ <;>
    rw [hst] at hcar <;> first | exact hcar.elim | exact hcar | exact hcar.1 ▸ hcar.2.2

/-- New instances and servers bring nothing to the calls there are. -/
theorem flight_sublist (hc : v.CallOk c)
    (hr : ∀ i, ∀ q < v.instances.length, v'.rafts i = some q → v.rafts i = some q)
    (hs : ∀ i, ∀ p < v.receivers.length, v'.servers i = some p → v.servers i = some p) :
    (v'.flight c).Sublist (v.flight c) := by
  have hif : ∀ {P Q : Prop} [Decidable P] [Decidable Q] {l : List (Item n C)}, (P → Q) →
      (if P then l else []).Sublist (if Q then l else []) := by
    intro P Q _ _ l hPQ
    split_ifs with hP hQ
    · exact List.Sublist.refl _
    · exact absurd (hPQ hP) hQ
    · exact List.nil_sublist _
    · exact List.Sublist.refl _
  have hinst := hc.inst_lt
  have hcar := hc.carries
  obtain ⟨req, st, hd⟩ := c
  rcases st with _ | _ | rt | rt | ⟨rt, _ | r⟩ | ⟨rt, r⟩ | r | ⟨_ | r⟩ | ⟨_ | r⟩ <;> cases hd <;>
    first
    | exact hcar.elim
    | exact List.Sublist.refl _
    | exact hif (hr _ _ hinst)
    | exact hif (hs _ _ hcar.2.1.2.lt)
    | exact hif (hs _ _ hcar.1.2.lt)

end Wiring

namespace Config

open Wiring

variable {s s' : Config n C} {e : Config.Event n C}
  {c c' : Call ℕ (Fin n) (Item n C) (Message n C)} {k : ℕ}

/-- A call brings no more after a step than before, unless a method returns. -/
theorem flight_goes {ev : LabRPC.Event ℕ (Fin n) (Item n C) (Message n C)} (hv : s.wiring.Sane)
    (hc : s.wiring.CallOk c) (hgo : c.Goes s.net k ev c')
    (hret : ∀ resp, ev ≠ .proceed k (.ret resp)) :
    (s.wiring.flight c').Sublist (s.wiring.flight c) := by
  have hcar := hc.carries
  cases hgo with
  | stay | alive | recv => exact List.Sublist.refl _
  | @enter req st =>
    rcases st with _ | _ | rt | rt | ⟨rt, _ | r⟩ | ⟨rt, r⟩ | r | ⟨_ | r⟩ | ⟨_ | r⟩ <;>
      exact List.Sublist.refl _
  | ret => exact absurd rfl (hret _)
  | @read req hd rt hrt =>
    have hcur : s.wiring.rafts req.args.msg.caller = some req.args.inst :=
      (route_of_readEndnameInfo hv hc hrt).2
    have hreading : s.wiring.flight ⟨req, .reading, hd⟩ = [req.args] := if_pos hcur
    rw [hreading]
    exact List.Sublist.refl _
  | @pass req rt resp hd ha =>
    have hserver : s.wiring.servers rt.servername = some rt.server := by
      simp only [Network.isServerDead, Bool.or_eq_false_iff, decide_eq_false_iff_not,
        not_not] at ha
      exact ha.2
    cases hd with
    | ended p =>
      have hchecking : s.wiring.flight ⟨req, .checking rt (some resp), .ended p⟩ =
        [⟨req.args.inst, resp⟩] := if_pos hserver
      rw [hchecking]
      exact List.Sublist.refl _
    | _ => exact hcar.elim
  | @refuse req hd | @timeout req hd | @drop req hd | @dispatch req hd | @reply req _ hd =>
    cases hd <;> first | exact hcar.elim | exact List.nil_sublist _ | exact List.Sublist.refl _
  | @dead req rt hd | @fail req rt _ hd | @giveUp req rt hd | @lose req rt _ hd
  | @hold req rt _ hd | @wake req _ hd | @deliver req rt _ hd =>
    cases hd <;> first | exact hcar.elim | exact List.nil_sublist _ | exact List.Sublist.refl _

/-! ## The mail of the current instances -/

/-- The messages that are not encoded yet, as they were built. -/
def items (s : Config n C) : List (Item n C) := s.outbox.map Draft.item

theorem items_post (q : ℕ) (r : Raft n C) (msgs : List (Message n C)) :
    (s.post q r msgs).items = s.items ++ msgs.map (Item.mk q) := by
  simp only [items, post, List.map_append, List.map_map]
  rfl

/-- The messages that can still get to a current instance. -/
def mail (s : Config n C) : Multiset (Item n C) :=
  (s.items : Multiset (Item n C)).filter (fun it => s.rafts it.msg.caller = some it.inst) +
    s.net.calls.flatMap s.wiring.flight + s.inbox

/-- A message in flight, given the incarnations of the instances. -/
def packet (inc : ℕ → ℕ) (it : Item n C) : Packet n C := ⟨it.msg, inc it.inst⟩

/-- A step of a call in which no method returns adds nothing. -/
theorem coe_flight_le {ev : LabRPC.Event ℕ (Fin n) (Item n C) (Message n C)}
    {net : Network ℕ (Fin n) (Item n C) (Message n C)} (hv : s.wiring.Sane) (hm : s.Mail)
    (h : Network.step ev s.net = some net) (hown : ev.Own k)
    (hret : ∀ resp, ev ≠ .proceed k (.ret resp)) :
    (net.calls.flatMap s.wiring.flight : Multiset (Item n C)) ≤
      s.net.calls.flatMap s.wiring.flight := by
  obtain ⟨c, c', hc, hgo, hcalls⟩ := Network.calls_of_own (Network.next_of_step h).2 hown
  have hsub := flight_goes hv (hm.calls k c hc) hgo hret
  have hset := coe_flatMap_set (b := c') s.wiring.flight hc
  rw [hcalls]
  refine le_of_add_le_add_right (a := (s.wiring.flight c : Multiset (Item n C))) ?_
  rw [hset]
  exact add_le_add_right (Multiset.coe_le.mpr hsub.subperm) _

/-! ## Steps of the cluster -/

section Exec

variable {cl : Cluster n C} {i : Fin n} {r r' : Raft n C} {a rnd : ℕ} {msgs : List (Message n C)}

theorem exec_tick (hi : cl.nodes i = ⟨r, .running, a⟩) (hc : r.commitc = none)
    (h : r.tick rnd = .ok (r', msgs)) : cl.exec (.tick i rnd) =
      ⟨Function.update cl.nodes i ⟨r', .running, a⟩, cl.net ++ msgs.map (⟨·, a⟩)⟩ := by
  have hready : Node.Ready ⟨r, .running, a⟩ := ⟨rfl, hc⟩
  simp only [Cluster.exec, hi, if_pos hready, h, Cluster.finish, Cluster.setNode, Cluster.send]

theorem exec_start {command : Option C} {reply : Raft.StartReply}
    (hi : cl.nodes i = ⟨r, .running, a⟩) (hc : r.commitc = none)
    (h : r.handleStart command = .ok (r', msgs, reply)) : cl.exec (.start i command) =
      ⟨Function.update cl.nodes i ⟨r', .running, a⟩, cl.net ++ msgs.map (⟨·, a⟩)⟩ := by
  have hready : Node.Ready ⟨r, .running, a⟩ := ⟨rfl, hc⟩
  simp only [Cluster.exec, hi, if_pos hready, h, Except.map, Cluster.finish, Cluster.setNode,
    Cluster.send]

theorem exec_stateMachine (hi : cl.nodes i = ⟨r, .running, a⟩) (h : r.stateMachine = .ok r') :
    cl.exec (.stateMachine i) = ⟨Function.update cl.nodes i ⟨r', .running, a⟩, cl.net⟩ := by
  simp only [Cluster.exec, hi, h, if_true, Cluster.setNode]

theorem exec_deliver {pk : Packet n C} (hk : cl.net[k]? = some pk)
    (hi : cl.nodes pk.msg.dst = ⟨r, .running, a⟩) (hc : r.commitc = none)
    (ha : pk.msg.isResp = true → pk.incarnation = a) (h : r.step rnd pk.msg = .ok (r', msgs)) :
    cl.exec (.deliver k rnd) = ⟨Function.update cl.nodes pk.msg.dst ⟨r', .running, a⟩,
      cl.net.eraseIdx k ++ msgs.map (⟨·, pk.incarnation⟩)⟩ := by
  have hcan : cl.CanDeliver pk := by
    rw [Cluster.CanDeliver, hi]
    exact ⟨⟨rfl, hc⟩, ha⟩
  simp only [Cluster.exec, hk, if_pos hcan, hi, h, Cluster.finish, Cluster.setNode, Cluster.send]

theorem exec_restart : (cl.exec (.crash i)).exec (.restart i rnd) =
    ⟨Function.update cl.nodes i ⟨.make i (cl.nodes i).raft.persister rnd, .running,
      (cl.nodes i).incarnation + 1⟩, cl.net⟩ := by
  simp only [Cluster.exec, Cluster.setNode, Function.update_self, reduceCtorEq, if_false,
    Function.update_idem]

end Exec

/-! ## The refinement -/

/-- The current instances are the nodes of the cluster, and their mail is in its network. -/
structure Refines (inc : ℕ → ℕ) (s : Config n C) (cl : Cluster n C) : Prop where
  running : ∀ i q, s.rafts i = some q →
    ∃ x, s.instances[q]? = some x ∧ cl.nodes i = ⟨x.raft, .running, inc q⟩
  saved : ∀ i, s.rafts i = none → (cl.nodes i).raft.persister = s.saved i
  mail : s.mail.map (packet inc) ≤ cl.net

variable {inc : ℕ → ℕ} {cl : Cluster n C}

/-- An instance is current for one server at most. -/
theorem rafts_inj (hv : s.wiring.Sane) {i j : Fin n} {q : ℕ} (hi : s.rafts i = some q)
    (hj : s.rafts j = some q) : i = j := by
  obtain ⟨ends, hq, -⟩ := hv.current i q hi
  obtain ⟨ends', hq', -⟩ := hv.current j q hj
  exact congrArg Prod.fst (Option.some.inj (hq.symm.trans hq'))

/-- The server of a current instance. -/
theorem rafts_of_ready (hv : s.wiring.Sane) {i : Fin n} {q : ℕ} {r : Raft n C}
    (hq : s.ready q = some r) (hi : s.rafts i = some q) : r.me = i := by
  obtain ⟨x, hx, rfl, -⟩ := ready_eq_some hq
  obtain ⟨ends, hq, -⟩ := hv.current i q hi
  exact congrArg Prod.fst (Option.some.inj ((wiring_getElem? hx).symm.trans hq))

theorem setRaft_getElem? {q p : ℕ} {r : Raft n C} {x : Instance n C}
    (hx : s.instances[p]? = some x) :
    (s.setRaft q r).instances[p]? =
      some (if q = p then ⟨r, x.ends, x.memory.append r.log⟩ else x) := by
  simp [setRaft, List.getElem?_modify, hx]

/-- A current instance and its node go on together. -/
theorem Refines.update (hR : Refines inc s cl) (hv : s.wiring.Sane) {i : Fin n} {q : ℕ}
    {r' : Raft n C} {net : List (Packet n C)} (hi : s.rafts i = some q)
    (hinst : s'.instances = (s.setRaft q r').instances) (hrafts : s'.rafts = s.rafts)
    (hsaved : s'.saved = s.saved) (hmail : s'.mail.map (packet inc) ≤ net) :
    Refines inc s' ⟨Function.update cl.nodes i ⟨r', .running, inc q⟩, net⟩ where
  running := by
    intro j p hj
    rw [hrafts] at hj
    obtain ⟨x, hx, hnode⟩ := hR.running j p hj
    rw [hinst]
    refine ⟨_, setRaft_getElem? hx, ?_⟩
    by_cases hji : j = i
    · subst hji
      obtain rfl := Option.some.inj (hi.symm.trans hj)
      simp
    · have hqp : q ≠ p := by
        rintro rfl
        exact hji (rafts_inj hv hj hi)
      rw [if_neg hqp]
      exact (Function.update_of_ne hji _ _).trans hnode
  saved := by
    intro j hj
    rw [hrafts] at hj
    have hji : j ≠ i := by
      rintro rfl
      exact Option.some_ne_none q (hi.symm.trans hj)
    rw [hsaved, ← hR.saved j hj]
    show (Function.update cl.nodes i _ j).raft.persister = _
    rw [Function.update_of_ne hji]
  mail := hmail

/-- An instance that is not current can do what it likes. -/
theorem Refines.other (hR : Refines inc s cl) {q : ℕ} {r' : Raft n C}
    (hq : ∀ i, s.rafts i ≠ some q) (hinst : s'.instances = (s.setRaft q r').instances)
    (hrafts : s'.rafts = s.rafts) (hsaved : s'.saved = s.saved) (hmail : s'.mail ≤ s.mail) :
    Refines inc s' cl where
  running := by
    intro j p hj
    rw [hrafts] at hj
    obtain ⟨x, hx, hnode⟩ := hR.running j p hj
    have hqp : q ≠ p := by
      rintro rfl
      exact hq j hj
    rw [hinst]
    exact ⟨_, setRaft_getElem? hx, by rwa [if_neg hqp]⟩
  saved := by
    intro j hj
    rw [hrafts] at hj
    rw [hsaved]
    exact hR.saved j hj
  mail := (Multiset.map_le_map hmail).trans hR.mail

/-! ## Steps of the servers -/

/-- The mail, if the wiring is as it was. -/
theorem mail_of_wiring (hw : s'.wiring = s.wiring) : s'.mail =
    (s'.items : Multiset (Item n C)).filter (fun it => s.rafts it.msg.caller = some it.inst) +
      s'.net.calls.flatMap s.wiring.flight + s'.inbox := by
  have hrafts : s'.rafts = s.rafts := congrArg Wiring.rafts hw
  rw [mail, hw, hrafts]

/-- Requests are mail if the instance that sends them is current. -/
theorem filter_requests {r r' : Raft n C} {msgs : List (Message n C)} {q : ℕ}
    (hr : Raft.Requests r r' msgs) (out : List (Item n C)) :
    ((out ++ msgs.map (Item.mk q) : List (Item n C)) : Multiset (Item n C)).filter
      (fun it => s.rafts it.msg.caller = some it.inst) =
    (out : Multiset (Item n C)).filter (fun it => s.rafts it.msg.caller = some it.inst) +
      if s.rafts r.me = some q then (msgs.map (Item.mk q) : Multiset (Item n C)) else 0 := by
  rw [← Multiset.coe_add, Multiset.filter_add]
  congr 1
  split_ifs with hcur
  · rw [Multiset.filter_eq_self]
    intro it hit
    obtain ⟨m, hm, rfl⟩ := List.mem_map.mp (Multiset.mem_coe.mp hit)
    rwa [hr.caller m hm]
  · rw [Multiset.filter_eq_nil]
    intro it hit
    obtain ⟨m, hm, rfl⟩ := List.mem_map.mp (Multiset.mem_coe.mp hit)
    rwa [hr.caller m hm]

/-- Some actions of the cluster lead to a refinement again. -/
def Follows (inc : ℕ → ℕ) (cl : Cluster n C) (s' : Config n C) : Prop :=
  ∃ as : List (Action n C), Refines inc s' (as.foldl Cluster.exec cl)

/-- An iteration of an event loop that sends requests. -/
theorem Refines.loop (hR : Refines inc s cl) (hv : s.wiring.Sane) {q : ℕ} {r r' : Raft n C}
    {msgs : List (Message n C)} (hq : s.ready q = some r) (hreq : Raft.Requests r r' msgs)
    {act : Fin n → Action n C}
    (hact : ∀ i, cl.nodes i = ⟨r, .running, inc q⟩ → r.commitc = none → cl.exec (act i) =
      ⟨Function.update cl.nodes i ⟨r', .running, inc q⟩, cl.net ++ msgs.map (⟨·, inc q⟩)⟩) :
    Follows inc cl (s.post q r' msgs) := by
  have hmail : (s.post q r' msgs).mail = s.mail +
      if s.rafts r.me = some q then (msgs.map (Item.mk q) : Multiset (Item n C)) else 0 := by
    have hw : (s.post q r' msgs).wiring = s.wiring := wiring_of_ready hq hreq.me
    rw [mail_of_wiring hw, items_post, Config.mail, filter_requests hreq]
    show _ + _ + (s.net.calls.flatMap s.wiring.flight : Multiset (Item n C)) +
      (s.inbox : Multiset (Item n C)) = _
    ac_rfl
  by_cases hcur : s.rafts r.me = some q
  · obtain ⟨x, hx, hnode⟩ := hR.running _ q hcur
    obtain ⟨y, hy, rfl, hc⟩ := ready_eq_some hq
    obtain rfl := Option.some.inj (hx.symm.trans hy)
    refine ⟨[act x.raft.me], ?_⟩
    rw [List.foldl_cons, List.foldl_nil, hact _ hnode hc]
    refine hR.update hv hcur rfl rfl rfl ?_
    rw [hmail, if_pos hcur, Multiset.map_add, ← Multiset.coe_add, Multiset.map_coe, List.map_map]
    exact add_le_add_left hR.mail _
  · refine ⟨[], hR.other (fun i hi => hcur ?_) rfl rfl rfl ?_⟩
    · rwa [rafts_of_ready hv hq hi]
    · rw [hmail, if_neg hcur, add_zero]

theorem Refines.stateMachine (hR : Refines inc s cl) (hv : s.wiring.Sane) {q : ℕ}
    {x : Instance n C} {r' : Raft n C} (hx : s.instances[q]? = some x)
    (h : x.raft.stateMachine = .ok r') : Follows inc cl (s.setRaft q r') := by
  have hmail : (s.setRaft q r').mail = s.mail :=
    mail_of_wiring (wiring_setRaft hx (Raft.stateMachine_me h))
  by_cases hcur : ∃ i, s.rafts i = some q
  · obtain ⟨i, hcur⟩ := hcur
    obtain ⟨y, hy, hnode⟩ := hR.running _ q hcur
    obtain rfl := Option.some.inj (hx.symm.trans hy)
    refine ⟨[.stateMachine i], ?_⟩
    rw [List.foldl_cons, List.foldl_nil, exec_stateMachine hnode h]
    exact hR.update hv hcur rfl rfl rfl (hmail ▸ hR.mail)
  · exact ⟨[], hR.other (fun i hi => hcur ⟨i, hi⟩) rfl rfl rfl hmail.le⟩

/-- A current instance takes a message of its mail. -/
theorem Refines.take (hR : Refines inc s cl) (hv : s.wiring.Sane) {i : Fin n} {q rnd : ℕ}
    {x : Instance n C} {r' : Raft n C} {msgs : List (Message n C)} {it : Item n C}
    {M : Multiset (Item n C)} (hi : s.rafts i = some q) (hx : s.instances[q]? = some x)
    (hc : x.raft.commitc = none) (hdst : it.msg.dst = i)
    (hresp : it.msg.isResp = true → it.inst = q) (h : x.raft.step rnd it.msg = .ok (r', msgs))
    (hmail : s.mail = it ::ₘ M) (hinst : s'.instances = (s.setRaft q r').instances)
    (hrafts : s'.rafts = s.rafts) (hsaved : s'.saved = s.saved)
    (hle : s'.mail ≤ M + (msgs.map (Item.mk it.inst) : Multiset (Item n C))) :
    Follows inc cl s' := by
  obtain ⟨y, hy, hnode⟩ := hR.running i q hi
  obtain rfl := Option.some.inj (hx.symm.trans hy)
  have hin := hR.mail
  rw [hmail, Multiset.map_cons] at hin
  obtain ⟨k, hk, hM⟩ := exists_eraseIdx hin
  have hexec := exec_deliver hk (hdst ▸ hnode) hc (fun hm => congrArg inc (hresp hm)) h
  refine ⟨[.deliver k rnd], ?_⟩
  rw [List.foldl_cons, List.foldl_nil, hexec]
  have hdst' : (packet inc it).msg.dst = i := hdst
  rw [hdst']
  refine hR.update hv hi hinst hrafts hsaved ?_
  refine (Multiset.map_le_map hle).trans ?_
  rw [Multiset.map_add, ← Multiset.coe_add, Multiset.map_coe, List.map_map]
  exact add_le_add_left hM _

/-- An event loop takes an answer. -/
theorem Refines.respond (hR : Refines inc s cl) (hv : s.wiring.Sane) (hm : s.Mail) {g rnd : ℕ}
    {it : Item n C} {r r' : Raft n C} {msgs : List (Message n C)} (hg : s.inbox[g]? = some it)
    (hq : s.ready it.inst = some r) (h : r.step rnd it.msg = .ok (r', msgs)) :
    Follows inc cl ({ s with inbox := s.inbox.eraseIdx g }.post it.inst r' msgs) := by
  set s' : Config n C := { s with inbox := s.inbox.eraseIdx g }.post it.inst r' msgs with hs'
  obtain ⟨hresp, hown⟩ := hm.inbox it (List.mem_of_getElem? hg)
  have hreq := Raft.step_requests hresp h
  have hw : s'.wiring = s.wiring := wiring_of_ready hq hreq.me
  have hmail' := mail_of_wiring hw
  rw [hs', items_post, filter_requests hreq, ← hs'] at hmail'
  obtain ⟨x, hx, rfl, hc⟩ := ready_eq_some hq
  have hme : x.raft.me = it.msg.dst := by
    obtain ⟨ends, hq'⟩ := hown
    rw [← Message.caller_of_isResp hresp]
    exact congrArg Prod.fst (Option.some.inj ((wiring_getElem? hx).symm.trans hq'))
  set M : Multiset (Item n C) :=
    (s.items : Multiset (Item n C)).filter (fun it => s.rafts it.msg.caller = some it.inst) +
      s.net.calls.flatMap s.wiring.flight + s.inbox.eraseIdx g with hM
  have hmail : s.mail = it ::ₘ M := by
    rw [Config.mail, coe_eraseIdx hg, Multiset.add_cons]
  by_cases hcur : s.rafts x.raft.me = some it.inst
  · rw [if_pos hcur] at hmail'
    refine hR.take hv hcur hx hc hme.symm (fun _ => rfl) h hmail rfl rfl rfl (le_of_eq ?_)
    rw [hmail', hM]
    show _ + _ + (s.net.calls.flatMap s.wiring.flight : Multiset (Item n C)) +
      (s.inbox.eraseIdx g : Multiset (Item n C)) = _
    ac_rfl
  · refine ⟨[], hR.other (fun i hi => hcur ?_) rfl rfl rfl ?_⟩
    · rwa [rafts_of_ready hv hq hi]
    · rw [hmail', if_neg hcur, add_zero, hmail]
      exact Multiset.le_cons_self M it

/-- What a call brings to the server that it is at. -/
theorem flight_running {req : ReqMsg ℕ (Item n C)} {st : Stage (Fin n) (Message n C)} {p : ℕ}
    (hc : s.wiring.CallOk ⟨req, st, .running p⟩) :
    s.wiring.flight ⟨req, st, .running p⟩ = [req.args] := by
  have hcar := hc.carries
  rcases st with _ | _ | rt | rt | ⟨rt, _ | r⟩ | ⟨rt, r⟩ | r | ⟨_ | r⟩ | ⟨_ | r⟩ <;>
    first | exact hcar.elim | rfl

/-- What a call can bring when its method has returned. -/
theorem flight_returned {req : ReqMsg ℕ (Item n C)} {st : Stage (Fin n) (Message n C)} {p q : ℕ}
    (hv : s.wiring.Sane) (hc : s.wiring.CallOk ⟨req, st, .running p⟩)
    (hp : s.receivers[p]? = some q) (resp : Message n C) :
    s.wiring.flight ⟨req, st, .returned p resp⟩ = [] ∨
      s.wiring.flight ⟨req, st, .returned p resp⟩ = [⟨req.args.inst, resp⟩] ∧
        s.rafts req.args.msg.dst = some q := by
  have hcar := hc.carries
  rcases st with _ | _ | rt | rt | ⟨rt, _ | r⟩ | ⟨rt, r⟩ | r | ⟨_ | r⟩ | ⟨_ | r⟩
  case waiting =>
    obtain ⟨rfl, hname, -⟩ := hcar
    have hflight : s.wiring.flight ⟨req, .waiting rt, .returned rt.server resp⟩ =
      if s.wiring.servers rt.servername = some rt.server then [⟨req.args.inst, resp⟩] else [] := rfl
    rw [hflight]
    split_ifs with hserver
    · obtain ⟨q', hp', hcur⟩ := hv.served _ _ hserver
      obtain rfl := Option.some.inj (hp.symm.trans hp')
      exact .inr ⟨rfl, hname ▸ hcur⟩
    · exact .inl rfl
  all_goals first | exact hcar.elim | exact .inl rfl

/-- An event loop takes a request, and the method returns. -/
theorem Refines.handle (hR : Refines inc s cl) (hv : s.wiring.Sane) (hm : s.Mail)
    {k rnd p q : ℕ} {req : ReqMsg ℕ (Item n C)} {st : Stage (Fin n) (Message n C)}
    {r r' : Raft n C} {resp : Message n C} {rest : List (Message n C)}
    {net : Network ℕ (Fin n) (Item n C) (Message n C)}
    (hc : s.net.calls[k]? = some ⟨req, st, .running p⟩) (hp : s.receivers[p]? = some q)
    (hq : s.ready q = some r) (hr : r.step rnd req.args.msg = .ok (r', resp :: rest))
    (h : Network.step (.proceed k (.ret resp)) s.net = some net) :
    Follows inc cl { s.setRaft q r' with net := net } := by
  set s' : Config n C := { s.setRaft q r' with net := net } with hs'
  have hok := hm.calls k _ hc
  obtain ⟨hme, resp', hmsgs, -⟩ := Raft.step_reply hok.request hr
  obtain ⟨rfl, rfl⟩ := List.cons.inj hmsgs
  have hw : s'.wiring = s.wiring := by
    rw [← wiring_of_ready hq hme]
    exact SameWires.wiring (s := s.setRaft q r') (sameWires_proceed h) s.inbox s.outbox
  obtain ⟨x, hx, rfl, hcc⟩ := ready_eq_some hq
  -- The request goes out of the mail, and the answer comes in if the server is still there.
  obtain ⟨c, c', hc', hnext, hnet⟩ := Network.of_next_proceed (Network.next_of_step h).2
  obtain rfl := Option.some.inj (hc.symm.trans hc')
  obtain rfl := Option.some.inj hnext
  have hset := coe_flatMap_set (b := ⟨req, st, .returned p resp⟩) s.wiring.flight hc
  rw [flight_running hok] at hset
  obtain ⟨M, hM⟩ : ∃ M, s.mail = req.args ::ₘ M := by
    refine Multiset.exists_cons_of_mem ?_
    have hmem : req.args ∈ s.net.calls.flatMap s.wiring.flight :=
      List.mem_flatMap.mpr ⟨_, List.mem_of_getElem? hc, by simp [flight_running hok]⟩
    exact Multiset.mem_add.mpr (.inl (Multiset.mem_add.mpr (.inr hmem)))
  have hmail' : s'.mail = M + s.wiring.flight ⟨req, st, .returned p resp⟩ := by
    refine add_right_cancel (b := ([req.args] : Multiset (Item n C))) ?_
    have hF := mail_of_wiring hw
    subst hnet
    calc s'.mail + [req.args]
        = (s.items : Multiset (Item n C)).filter (fun it => s.rafts it.msg.caller = some it.inst) +
            ((s.net.calls.set k ⟨req, st, .returned p resp⟩).flatMap s.wiring.flight +
              [req.args]) + s.inbox := by
          rw [hF]
          ac_rfl
      _ = s.mail + s.wiring.flight ⟨req, st, .returned p resp⟩ := by
          rw [hset, Config.mail]
          ac_rfl
      _ = M + s.wiring.flight ⟨req, st, .returned p resp⟩ + [req.args] := by
          rw [hM, ← Multiset.singleton_add]
          exact add_rotate _ _ _
  obtain ⟨q', ends, hp', hq'⟩ := hok.running rfl
  obtain rfl := Option.some.inj (hp.symm.trans hp')
  have hdst : x.raft.me = req.args.msg.dst :=
    congrArg Prod.fst (Option.some.inj ((wiring_getElem? hx).symm.trans hq'))
  by_cases hcur : s.rafts req.args.msg.dst = some q
  · refine hR.take hv hcur hx hcc rfl (fun hresp => ?_) hr hM rfl rfl rfl ?_
    · exact absurd (hok.request.symm.trans hresp) Bool.false_ne_true
    · rw [hmail']
      refine add_le_add_right ?_ M
      rcases flight_returned hv hok hp resp with hnil | ⟨hone, -⟩
      · rw [hnil]
        exact Multiset.zero_le _
      · exact le_of_eq (congrArg _ hone)
  · have hnil := (flight_returned hv hok hp resp).resolve_right fun h => hcur h.2
    refine ⟨[], hR.other (fun i hi => hcur ?_) rfl rfl rfl ?_⟩
    · rwa [← hdst, rafts_of_ready hv hq hi]
    · rw [hmail', hnil, Multiset.coe_nil, add_zero, hM]
      exact Multiset.le_cons_self M _

/-! ## Steps of the network -/

theorem Refines.mono (hR : Refines inc s cl) (hinst : s'.instances = s.instances)
    (hrafts : s'.rafts = s.rafts) (hsaved : s'.saved = s.saved) (hmail : s'.mail ≤ s.mail) :
    Refines inc s' cl where
  running := by
    rw [hinst, hrafts]
    exact hR.running
  saved := by
    rw [hrafts, hsaved]
    exact hR.saved
  mail := (Multiset.map_le_map hmail).trans hR.mail

theorem mail_call {g : ℕ} {d : Draft n C} {x : Instance n C}
    {net : Network ℕ (Fin n) (Item n C) (Message n C)} (hg : s.outbox[g]? = some d)
    (hin : d.encode x.memory = d.item)
    (h : Network.step (.call ⟨x.ends d.item.msg.dst, d.item.msg.svcMeth, d.encode x.memory⟩) s.net =
      some net) : mail { s with outbox := s.outbox.eraseIdx g, net := net } = s.mail := by
  have hw := (sameWires_call h).wiring s.inbox (s.outbox.eraseIdx g)
  obtain rfl := Option.some.inj (Network.next_of_step h).2
  have hitem : s.items[g]? = some d.item := by simp [items, hg]
  rw [mail_of_wiring hw, mail, coe_eraseIdx hitem, hin]
  obtain ⟨it, slice⟩ := d
  have hnew : (s.wiring.flight ⟨⟨x.ends it.msg.dst, it.msg.svcMeth, it⟩, .reading, .unborn⟩ :
      Multiset (Item n C)) = if s.rafts it.msg.caller = some it.inst then {it} else 0 := by
    show ((if s.rafts it.msg.caller = some it.inst then [it] else [] : List (Item n C)) :
      Multiset (Item n C)) = _
    split_ifs <;> rfl
  simp only [items, ← List.eraseIdx_map, List.flatMap_append, List.flatMap_cons, List.flatMap_nil,
    List.append_nil, ← Multiset.coe_add, Multiset.filter_cons, hnew]
  ac_rfl

theorem mail_proceed {ev : LabRPC.Event ℕ (Fin n) (Item n C) (Message n C)}
    {net : Network ℕ (Fin n) (Item n C) (Message n C)} (hv : s.wiring.Sane) (hm : s.Mail)
    (hw : SameWires s.net net) (h : Network.step ev s.net = some net) (hown : ev.Own k)
    (hret : ∀ resp, ev ≠ .proceed k (.ret resp)) : mail { s with net := net } ≤ s.mail := by
  have hle := coe_flight_le hv hm h hown hret
  rw [mail_of_wiring (hw.wiring s.inbox s.outbox), mail]
  exact add_le_add_left (add_le_add_right hle _) _

theorem mail_answer {req : ReqMsg ℕ (Item n C)} {resp : Message n C} {hd : Handler (Message n C)}
    {net : Network ℕ (Fin n) (Item n C) (Message n C)} (hm : s.Mail)
    (hc : s.net.calls[k]? = some ⟨req, .replying (some resp), hd⟩)
    (h : Network.step (.proceed k .reply) s.net = some net) :
    mail { s with inbox := s.inbox ++ [⟨req.args.inst, resp⟩], net := net } = s.mail := by
  have hw := (sameWires_proceed h).wiring (s.inbox ++ [⟨req.args.inst, resp⟩]) s.outbox
  have hcar := (hm.calls k _ hc).carries
  obtain ⟨c, c', hc', hnext, rfl⟩ := Network.of_next_proceed (Network.next_of_step h).2
  obtain rfl := Option.some.inj (hc.symm.trans hc')
  obtain rfl := Option.some.inj hnext
  have hset := coe_flatMap_set (b := ⟨req, .replied (some resp), hd⟩) s.wiring.flight hc
  cases hd with
  | ended p =>
    have hset' : ((s.net.calls.set k ⟨req, .replied (some resp), .ended p⟩).flatMap
        s.wiring.flight : Multiset (Item n C)) + [Item.mk req.args.inst resp] =
        s.net.calls.flatMap s.wiring.flight := hset.trans (add_zero _)
    rw [mail_of_wiring hw, mail, ← hset', ← Multiset.coe_add]
    ac_rfl
  | _ => exact hcar.elim

/-! ## Steps of the tester -/

theorem wiring_length : s.wiring.instances.length = s.instances.length := List.length_map _

/-- What is under way belongs to instances that are there. -/
theorem Mail.inst_lt (hm : s.Mail) {it : Item n C} (h : it ∈ s.mail) :
    it.inst < s.wiring.instances.length := by
  have howns : ∀ {it : Item n C}, s.wiring.Owns it → it.inst < s.wiring.instances.length := by
    rintro it ⟨ends, hq⟩
    exact (List.getElem?_eq_some_iff.mp hq).1
  rw [Config.mail, Multiset.mem_add, Multiset.mem_add, Multiset.mem_filter] at h
  rcases h with (⟨h, -⟩ | h) | h
  · obtain ⟨d, hd, rfl⟩ := List.mem_map.mp h
    exact howns (hm.outbox d hd).2
  · obtain ⟨c, hc, hit⟩ := List.mem_flatMap.mp h
    obtain ⟨k, hk⟩ := List.mem_iff_getElem?.mp hc
    rw [inst_of_flight hit]
    exact (hm.calls k c hk).inst_lt
  · exact howns (hm.inbox it h).2

/-- With fewer servers and instances to get to there is less mail. -/
theorem mail_le (hm : s.Mail) (hout : s'.outbox = s.outbox) (hin : s'.inbox = s.inbox)
    (hcalls : s'.net.calls = s.net.calls)
    (hr : ∀ i, ∀ q < s.wiring.instances.length, s'.rafts i = some q → s.rafts i = some q)
    (hs : ∀ i, ∀ p < s.wiring.receivers.length,
      s'.net.servers i = some p → s.net.servers i = some p) : s'.mail ≤ s.mail := by
  rw [mail, mail, items, hout, hin, hcalls]
  refine add_le_add_left (add_le_add ?_ (Multiset.coe_le.mpr (List.Sublist.subperm ?_))) _
  · refine Multiset.le_filter.mpr ⟨Multiset.filter_le _ _, fun it hit => ?_⟩
    obtain ⟨hit, hcur⟩ := Multiset.mem_filter.mp hit
    obtain ⟨d, hd, rfl⟩ := List.mem_map.mp hit
    obtain ⟨ends, hq⟩ := (hm.outbox d hd).2
    exact hr _ _ (List.getElem?_eq_some_iff.mp hq).1 hcur
  · refine List.Sublist.flatMap_right _ fun c hc => ?_
    obtain ⟨k, hk⟩ := List.mem_iff_getElem?.mp hc
    exact flight_sublist (hm.calls k c hk) hr hs

theorem Operates.saved {op : Op n} (h : s.Operates op s') (hop : ∀ i, op ≠ .kill i) :
    s'.saved = s.saved := by
  cases h with
  | kill => exact absurd rfl (hop _)
  | _ => rfl

/-- The tester stops the current instance of a server. -/
theorem Refines.kill (hR : Refines inc s cl) (hm : s.Mail) {i : Fin n} {q : ℕ}
    {x : Instance n C} (hq : s.rafts i = some q) (hx : s.instances[q]? = some x) :
    Refines inc { s with
      saved := Function.update s.saved i x.raft.persister
      rafts := Function.update s.rafts i none } cl where
  running := by
    intro j p hj
    simp only [Function.update_apply] at hj
    split_ifs at hj
    exact hR.running j p hj
  saved := by
    intro j hj
    simp only [Function.update_apply] at hj ⊢
    split_ifs at hj ⊢ with hji
    · subst hji
      obtain ⟨y, hy, hnode⟩ := hR.running j q hq
      obtain rfl := Option.some.inj (hx.symm.trans hy)
      rw [hnode]
    · exact hR.saved j hj
  mail := by
    have hle : Config.mail { s with
        saved := Function.update s.saved i x.raft.persister
        rafts := Function.update s.rafts i none } ≤ s.mail := by
      refine mail_le hm rfl rfl rfl (fun j p _ hj => ?_) fun _ _ _ => id
      simp only [Function.update_apply] at hj
      split_ifs at hj
      exact hj
    exact (Multiset.map_le_map hle).trans hR.mail

/-- The tester starts a server on what its last instance has persisted. -/
theorem Refines.make (hR : Refines inc s cl) (hm : s.Mail) {i : Fin n}
    {names : Fin n → ℕ} {rnd : ℕ} {memory : Memory C} (hi : s.rafts i = none) :
    Refines (Function.update inc s.instances.length ((cl.nodes i).incarnation + 1)) { s with
      instances := s.instances ++ [⟨.make i (s.saved i) rnd, names, memory⟩]
      rafts := Function.update s.rafts i (some s.instances.length) }
      ((cl.exec (.crash i)).exec (.restart i rnd)) where
  running := by
    intro j q hj
    rw [exec_restart]
    simp only [Function.update_apply] at hj ⊢
    split_ifs at hj with hji
    · obtain rfl := Option.some.inj hj
      rw [if_pos hji, if_pos rfl, hR.saved i hi]
      exact ⟨_, List.getElem?_concat_length, rfl⟩
    · obtain ⟨x, hx, hnode⟩ := hR.running j q hj
      have hne := (List.getElem?_eq_some_iff.mp hx).1.ne
      rw [if_neg hji, if_neg hne]
      exact ⟨x, getElem?_concat_of_some hx, hnode⟩
  saved := by
    intro j hj
    rw [exec_restart]
    simp only [Function.update_apply] at hj ⊢
    split_ifs at hj with hji
    rw [if_neg hji]
    exact hR.saved j hj
  mail := by
    rw [exec_restart]
    have hle : Config.mail { s with
        instances := s.instances ++ [⟨.make i (s.saved i) rnd, names, memory⟩]
        rafts := Function.update s.rafts i (some s.instances.length) } ≤ s.mail := by
      refine mail_le hm rfl rfl rfl (fun j q hq hj => ?_) fun _ _ _ => id
      simp only [Function.update_apply] at hj
      split_ifs at hj
      · obtain rfl := Option.some.inj hj
        exact absurd (wiring_length ▸ hq) (lt_irrefl _)
      · exact hj
    have hcongr : ∀ it ∈ s.mail,
        packet (Function.update inc s.instances.length ((cl.nodes i).incarnation + 1)) it =
          packet inc it := by
      intro it hit
      have hlt := hm.inst_lt hit
      rw [wiring_length] at hlt
      rw [packet, Function.update_of_ne hlt.ne, packet]
    calc _ ≤ s.mail.map (packet _) := Multiset.map_le_map hle
      _ = s.mail.map (packet inc) := Multiset.map_congr rfl hcongr
      _ ≤ cl.net := hR.mail

/-- An operation of the tester. -/
theorem Refines.operates (hR : Refines inc s cl) (hm : s.Mail)
    (hlen : s.receivers.length = s.net.objects.length) {op : Op n} (hdue : Due op s.wiring)
    (h : s.Operates op s') : ∃ inc, Follows inc cl s' := by
  cases h with
  | kill hq hx => exact ⟨inc, [], hR.kill hm hq hx⟩
  | @make i names hn rnd spare => exact ⟨_, [.crash i, .restart i rnd], hR.make hm hdue⟩
  | deleteServer i =>
    refine ⟨inc, [], hR.mono rfl rfl rfl (mail_le hm rfl rfl rfl (fun _ _ _ => id) ?_)⟩
    intro j p _ hj
    simp only [Function.update_apply] at hj
    split_ifs at hj
    exact hj
  | @addServer i q hq rs =>
    refine ⟨inc, [], hR.mono rfl rfl rfl (mail_le hm rfl rfl rfl (fun _ _ _ => id) ?_)⟩
    intro j p hp hj
    simp only [Function.update_apply] at hj
    split_ifs at hj
    · obtain rfl := Option.some.inj hj
      exact absurd (hlen ▸ hp) (lt_irrefl _)
    · exact hj
  | _ => exact ⟨inc, [], hR.mono rfl rfl rfl le_rfl⟩

/-- A step of the process is none, one or two actions of the cluster. -/
theorem Refines.moves (hR : Refines inc s cl) (hs : s.Tested) (hm : s.Mail) (hup : ¬ s.Gone)
    (hin : s.Intact e) (h : s.Moves e s') : ∃ inc, Follows inc cl s' := by
  have hv := hs.sane
  cases h with
  | panic hsub =>
    exact ⟨inc, [], hR.mono rfl rfl rfl
      (add_le_add_right (Multiset.coe_le.mpr hsub.subperm) _)⟩
  | command => exact ⟨inc, [], hR.mono rfl rfl rfl le_rfl⟩
  | @operate op ops _ hscript hop =>
    have hkeeps := hs.keeps.resolve_left hup
    rw [hscript] at hkeeps
    have hR' : Refines inc { s with script := ops } cl := hR.mono rfl rfl rfl le_rfl
    exact hR'.operates ⟨hm.outbox, hm.inbox, hm.calls⟩ hs.objects hkeeps.1
      (operates_of_operate hop)
  | tick hq ht =>
    exact ⟨inc, hR.loop hv hq (Raft.tick_requests ht) fun i hi hc => exec_tick hi hc ht⟩
  | start hq ht =>
    exact ⟨inc, hR.loop hv hq (Raft.handleStart_requests ht) fun i hi hc => exec_start hi hc ht⟩
  | stateMachine hx hr => exact ⟨inc, hR.stateMachine hv hx hr⟩
  | @call g d x net hg hx hnet =>
    have hitem : d.encode x.memory = d.item := by
      have hinst := (d.encode_eq x.memory).1
      have hmsg := hin d hg x hx
      generalize d.encode x.memory = it at hinst hmsg
      obtain ⟨q, msg⟩ := it
      obtain ⟨⟨q', msg'⟩, slice⟩ := d
      exact congrArg₂ Item.mk hinst hmsg
    exact ⟨inc, [], hR.mono rfl rfl rfl (mail_call hg hitem hnet).le⟩
  | enter hnet =>
    exact ⟨inc, [], hR.mono rfl rfl rfl
      (mail_proceed hv hm (sameWires_enter hnet) hnet rfl (by simp))⟩
  | abort hnet =>
    obtain ⟨crash, rfl⟩ := Network.of_next_abort (Network.next_of_step hnet).2
    exact ⟨inc, [], hR.mono rfl rfl rfl le_rfl⟩
  | proceed hx hnet =>
    refine ⟨inc, [], hR.mono rfl rfl rfl
      (mail_proceed hv hm (sameWires_proceed hnet) hnet rfl fun resp heq => ?_)⟩
    cases heq
    exact hx resp rfl
  | handle hc hp hq hr hnet => exact ⟨inc, hR.handle hv hm hc hp hq hr hnet⟩
  | answer hc hnet => exact ⟨inc, [], hR.mono rfl rfl rfl (mail_answer hm hc hnet).le⟩
  | respond hg hq hr => exact ⟨inc, hR.respond hv hm hg hq hr⟩

/-! ## Runs -/

theorem mail_of_runs {t : List (Config.Event n C)} (h : runs step init t = some s)
    (ht : Orderly t) : s.Mail := by
  refine runs_induction (P := fun t s => Orderly t → s.Mail) (fun _ => mail_init) ?_ h ht
  intro t s₁ e s₂ h₁ ih h₂ ht
  exact (ih ht.left).step (tested_of_runs h₁ ht.left).sane (moves_of_step h₂)

theorem refines_init : Refines (fun _ => 0) (init : Config n C)
    ((Schedule.ofList ([] : List (Action n C))).run 0) where
  running := by simp [init]
  saved := fun _ _ => rfl
  mail := Multiset.zero_le _

/-- More actions at the end change nothing before. -/
theorem run_append (as as' : List (Action n C)) {u : ℕ} (hu : u ≤ as.length) :
    (Schedule.ofList (as ++ as')).run u = (Schedule.ofList as).run u := by
  induction u with
  | zero => rfl
  | succ u ih =>
    have hact : (as ++ as').getD u .idle = as.getD u .idle := by
      simp only [List.getD_eq_getElem?_getD, List.getElem?_append_left hu]
    simp only [Schedule.run, ih (by omega)]
    simp only [Schedule.ofList, hact]

theorem run_foldl (as as' : List (Action n C)) :
    (Schedule.ofList (as ++ as')).run (as ++ as').length =
      as'.foldl Cluster.exec ((Schedule.ofList as).run as.length) := by
  induction as' using List.reverseRecOn with
  | nil => simp
  | append_singleton as' a ih =>
    have hact : (as ++ (as' ++ [a])).getD (as ++ as').length .idle = a := by
      rw [← List.append_assoc, List.getD_eq_getElem?_getD, List.getElem?_concat_length]
      rfl
    have hlen : (as ++ (as' ++ [a])).length = (as ++ as').length + 1 := by
      simp only [List.length_append, List.length_singleton, Nat.add_assoc]
    have hrun := run_append (as ++ as') [a] le_rfl
    rw [List.append_assoc] at hrun
    rw [hlen, Schedule.run, hrun, ih, List.foldl_append]
    simp only [Schedule.ofList, hact, List.foldl_cons, List.foldl_nil]

/-- The actions take the cluster to the state of each moment of the run `t` in turn. -/
structure Simulates (t : List (Config.Event n C)) (as : List (Action n C)) (τ : ℕ → ℕ) : Prop where
  mono : Monotone τ
  le : ∀ u, τ u ≤ as.length
  last : τ t.length = as.length
  refines : ∀ t₁ t₂ s, t = t₁ ++ t₂ → runs step init t₁ = some s →
    ∃ inc, Refines inc s ((Schedule.ofList as).run (τ t₁.length))

theorem simulates_nil : Simulates ([] : List (Config.Event n C)) [] fun _ => 0 where
  mono := monotone_const
  le := fun _ => le_rfl
  last := rfl
  refines := by
    intro t₁ t₂ s heq h
    obtain ⟨rfl, -⟩ := List.append_eq_nil_iff.mp heq.symm
    obtain rfl := Option.some.inj h
    exact ⟨_, refines_init⟩

/-- The actions of one more step go to the end. -/
theorem Simulates.concat {t : List (Config.Event n C)} {as as' : List (Action n C)} {τ : ℕ → ℕ}
    (hsim : Simulates t as τ) (h : runs step init (t ++ [e]) = some s')
    (hR : Refines inc s' ((Schedule.ofList (as ++ as')).run (as ++ as').length)) :
    Simulates (t ++ [e]) (as ++ as')
      fun u => if u ≤ t.length then τ u else (as ++ as').length where
  mono := by
    intro u v huv
    have hle := hsim.le u
    have hmono := hsim.mono huv
    simp only [List.length_append]
    split_ifs <;> omega
  le := by
    intro u
    have hle := hsim.le u
    simp only [List.length_append]
    split_ifs <;> omega
  last := if_neg (by simp)
  refines := by
    intro t₁ t₂ s heq h₁
    rcases List.eq_nil_or_concat t₂ with rfl | ⟨t₃, e', rfl⟩
    · rw [List.append_nil] at heq
      subst heq
      obtain rfl := Option.some.inj (h.symm.trans h₁)
      exact ⟨inc, by rwa [if_neg (by simp)]⟩
    · rw [List.concat_eq_append, ← List.append_assoc] at heq
      obtain ⟨rfl, -⟩ := List.append_inj' heq rfl
      obtain ⟨inc, hR₁⟩ := hsim.refines t₁ t₃ s rfl h₁
      refine ⟨inc, ?_⟩
      rw [if_pos (by simp), run_append as as' (hsim.le _)]
      exact hR₁

/-- A run of the process is a run of the cluster. -/
theorem exists_simulates {t : List (Config.Event n C)} (h : runs step init t = some s)
    (ht : Orderly t) (hin : Unaltered t) : ∃ as τ, Simulates t as τ := by
  refine runs_induction (P := fun t s => runs step init t = some s → Orderly t → Unaltered t →
    ∃ as τ, Simulates t as τ) (fun _ _ _ => ⟨[], _, simulates_nil⟩) ?_ h h ht hin
  intro t s₁ e s₂ h₁ ih h₂ hrun ht hin
  obtain ⟨hin, hine⟩ := (atEach_concat h₁).mp hin
  obtain ⟨as, τ, hsim⟩ := ih h₁ ht.left hin
  obtain ⟨inc, hR₁⟩ := hsim.refines t [] s₁ (by simp) h₁
  rw [hsim.last] at hR₁
  obtain ⟨inc', as', hR₂⟩ := hR₁.moves (tested_of_runs h₁ ht.left) (mail_of_runs h₁ ht.left)
    (not_gone_of_step h₂) hine (moves_of_step h₂)
  rw [← run_foldl] at hR₂
  exact ⟨_, _, hsim.concat hrun hR₂⟩

/-- A run of the process is, moment by moment, a run of a cluster: there are actions of the
cluster, and for each moment of the process the number of them that are done by then. -/
theorem refines_cluster {t : List (Config.Event n C)} (h : runs step init t = some s)
    (ht : Orderly t) (hin : Unaltered t) :
    ∃ (as : List (Action n C)) (τ : ℕ → ℕ), Monotone τ ∧ τ t.length = as.length ∧
      ∀ t₁ t₂ s₁, t = t₁ ++ t₂ → runs step init t₁ = some s₁ →
        ∃ inc, Refines inc s₁ ((Schedule.ofList as).run (τ t₁.length)) := by
  obtain ⟨as, τ, hsim⟩ := exists_simulates h ht hin
  exact ⟨as, τ, hsim.mono, hsim.last, hsim.refines⟩

theorem refines_cluster_restarted : (∃ s, runs step init restarted = some s) ∧
    ∃ (as : List (Action 2 ℕ)) (τ : ℕ → ℕ), Monotone τ ∧ τ restarted.length = as.length ∧
      ∀ t₁ t₂ s₁, restarted = t₁ ++ t₂ → runs step init t₁ = some s₁ →
        ∃ inc, Refines inc s₁ ((Schedule.ofList as).run (τ t₁.length)) := by
  obtain ⟨s, x, y, h, -⟩ := of_restarted (P := fun _ _ _ => True) (by decide +kernel)
  exact ⟨⟨s, h⟩, refines_cluster h orderly_restarted unaltered_restarted⟩

/-! ## Safety of the whole process -/

/-- The server `i` was in the state `r` at some moment of the run `t`. -/
def Seen (t : List (Config.Event n C)) (i : Fin n) (r : Raft n C) : Prop :=
  ∃ t₁ t₂ s, t = t₁ ++ t₂ ∧ runs step init t₁ = some s ∧ s.server i = some r

theorem seen_take {t : List (Config.Event n C)} {k : ℕ} {i : Fin n} {α : Type}
    {f : Raft n C → α} {a : α}
    (h : ((runs step init (t.take k)).bind fun s => s.server i).map f = some a) :
    ∃ r, Seen t i r ∧ f r = a := by
  obtain ⟨r, hr, ha⟩ := Option.map_eq_some_iff.mp h
  obtain ⟨s, hs, hr⟩ := Option.bind_eq_some_iff.mp hr
  exact ⟨r, ⟨t.take k, t.drop k, s, (List.take_append_drop k t).symm, hs, hr⟩, ha⟩

/-- What was seen of a server in the process is what a cluster has. -/
theorem Simulates.seen {t : List (Config.Event n C)} {as : List (Action n C)} {τ : ℕ → ℕ}
    (hsim : Simulates t as τ) {i : Fin n} {r : Raft n C} (h : Seen t i r) :
    ∃ u, (Schedule.ofList as).raft u i = r := by
  obtain ⟨t₁, t₂, s, heq, hrun, hserver⟩ := h
  obtain ⟨inc, hR⟩ := hsim.refines t₁ t₂ s heq hrun
  obtain ⟨x, hx, rfl⟩ := Option.map_eq_some_iff.mp hserver
  obtain ⟨q, hq, hx⟩ := Option.bind_eq_some_iff.mp hx
  obtain ⟨y, hy, hnode⟩ := hR.running i q hq
  obtain rfl := Option.some.inj (hx.symm.trans hy)
  exact ⟨τ t₁.length, by rw [Schedule.raft, hnode]⟩

/-- A term has one leader, whenever and however it is looked for. -/
theorem leader_eq {t : List (Config.Event n C)} (h : runs step init t = some s) (ht : Orderly t)
    (hin : Unaltered t) {i j : Fin n} {r r' : Raft n C} (hi : Seen t i r) (hj : Seen t j r')
    (hr : r.state = .stateLeader) (hr' : r'.state = .stateLeader)
    (hT : r.currentTerm = r'.currentTerm) : i = j := by
  obtain ⟨as, τ, hsim⟩ := exists_simulates h ht hin
  obtain ⟨u, rfl⟩ := hsim.seen hi
  obtain ⟨v, rfl⟩ := hsim.seen hj
  match n with
  | 0 => exact i.elim0
  | 1 => exact Subsingleton.elim i j
  | n + 2 =>
    have hrun := (Schedule.ofList as).isRun (by omega) (max u v)
    have hlead := Schedule.leaderAt_history hr
    rw [hT] at hlead
    exact hrun.leader_unique (le_max_left u v) (le_max_right u v) hlead
      (Schedule.leaderAt_history hr')

theorem leading_eq_some {i : Fin n} {o : Option (ℕ × Bool)} {x : ℕ × Fin n} :
    leading i o = some x ↔ o = some (x.1, true) ∧ i = x.2 := by
  rcases o with _ | ⟨T, _ | _⟩ <;> simp [leading, Prod.ext_iff]

theorem mem_leaders {look : Fin n → Option (ℕ × Bool)} {T : ℕ} {i : Fin n} :
    (T, i) ∈ leaders look ↔ look i = some (T, true) := by
  simp [leaders, leading_eq_some]

theorem mem_leadersOf {look : Fin n → Option (ℕ × Bool)} {T : ℕ} {i : Fin n} :
    i ∈ leadersOf look T ↔ look i = some (T, true) := by
  rw [← mem_leaders]
  simp [leadersOf]

theorem leadersOf_nodup (look : Fin n → Option (ℕ × Bool)) (T : ℕ) : (leadersOf look T).Nodup := by
  have hnodup : (leaders look).Nodup := by
    refine (List.nodup_finRange n).filterMap fun i j x hi hj => ?_
    rw [(leading_eq_some.mp hi).2, (leading_eq_some.mp hj).2]
  refine List.Nodup.map_on (fun x hx y hy hxy => ?_) (hnodup.filter _)
  have hx := of_decide_eq_true (List.mem_filter.mp hx).2
  have hy := of_decide_eq_true (List.mem_filter.mp hy).2
  exact Prod.ext (hx.trans hy.symm) hxy

/-- `GetState` of the server `i` returns `x`: it reads the term and then the state, both between
iterations of the event loop, and the server has the same term then. Within an iteration
`becomeFollower` sets the one before the other. -/
def GetsState (t : List (Config.Event n C)) (i : Fin n) (x : ℕ × Bool) : Prop :=
  ∃ r r', Seen t i r ∧ Seen t i r' ∧ r.currentTerm = r'.currentTerm ∧ x = r.getState r'

/-- `checkOneLeader` does not find two leaders of a term, however its calls of `GetState` are
spread over the run, if none of them falls into a change of the term. -/
theorem checkOneLeader_ok {t : List (Config.Event n C)} (h : runs step init t = some s)
    (ht : Orderly t) (hin : Unaltered t) {look : Fin n → Option (ℕ × Bool)}
    (hlook : ∀ i x, look i = some x → GetsState t i x) :
    ∃ o, checkOneLeader look = .ok o := by
  have hone : ¬ (leaders look).any fun x => (leadersOf look x.1).length > 1 := by
    rw [List.any_eq_true]
    rintro ⟨⟨T, k⟩, -, hlen⟩
    have hlen : 1 < (leadersOf look T).length := of_decide_eq_true hlen
    have hnodup := leadersOf_nodup look T
    have hsame : ∀ i ∈ leadersOf look T, ∀ j ∈ leadersOf look T, i = j := by
      intro i hi j hj
      obtain ⟨_, r, -, hr, hT, hir⟩ := hlook i _ (mem_leadersOf.mp hi)
      obtain ⟨_, r', -, hr', hT', hjr⟩ := hlook j _ (mem_leadersOf.mp hj)
      obtain ⟨hTr, hlr⟩ := Prod.mk.inj hir
      obtain ⟨hTr', hlr'⟩ := Prod.mk.inj hjr
      exact leader_eq h ht hin hr hr' (of_decide_eq_true hlr.symm) (of_decide_eq_true hlr'.symm)
        ((hTr.trans hT).symm.trans (hTr'.trans hT'))
    rcases hL : leadersOf look T with _ | ⟨i, _ | ⟨j, l⟩⟩
    · simp [hL] at hlen
    · simp [hL] at hlen
    · rw [hL] at hnodup hsame
      have hij := hsame i (by simp) j (by simp)
      exact (List.nodup_cons.mp hnodup).1 (hij ▸ List.mem_cons_self)
  unfold checkOneLeader
  rw [if_neg hone]
  split
  · exact ⟨_, rfl⟩
  · exact ⟨_, rfl⟩

/-- What the tester sees of `restarted`, at two moments. -/
def looked (i : Fin 2) : Option (ℕ × Bool) := some (2, i = p₀)

theorem checkOneLeader_ok_restarted : (∃ s, runs step init restarted = some s) ∧
    (∀ i x, looked i = some x → GetsState restarted i x) ∧ ∃ o, checkOneLeader looked = .ok o := by
  obtain ⟨s, x, y, h, -⟩ := of_restarted (P := fun _ _ _ => True) (by decide +kernel)
  have hlook : ∀ i x, looked i = some x → GetsState restarted i x := by
    rintro i x ⟨⟩
    by_cases hi : i = p₀
    · subst hi
      obtain ⟨r, hr, hget⟩ := seen_take (t := restarted) (k := 60) (i := p₀)
        (f := fun r => r.getState r) (by decide +kernel : _ = some (2, decide (p₀ = p₀)))
      exact ⟨r, r, hr, hr, rfl, hget.symm⟩
    · obtain rfl : i = p₁ := by
        simp only [p₀, p₁, Fin.ext_iff] at hi ⊢
        omega
      obtain ⟨r, hr, hget⟩ := seen_take (t := restarted) (k := 70) (i := p₁)
        (f := fun r => r.getState r) (by decide +kernel : _ = some (2, decide (p₁ = p₀)))
      exact ⟨r, r, hr, hr, rfl, hget.symm⟩
  exact ⟨⟨s, h⟩, hlook, checkOneLeader_ok h orderly_restarted unaltered_restarted hlook⟩

/-- What a server applies at an index, none applies otherwise; a killed instance that goes on is not
a server. -/
theorem apply_eq {t : List (Config.Event n C)} (h : runs step init t = some s) (ht : Orderly t)
    (hin : Unaltered t) {i j : Fin n} {r r' : Raft n C} (hi : Seen t i r) (hj : Seen t j r')
    {m m' : ApplyMsg C} (hm : m ∈ r.applyCh) (hm' : m' ∈ r'.applyCh) (hidx : m.index = m'.index) :
    m.command = m'.command := by
  obtain ⟨as, τ, hsim⟩ := exists_simulates h ht hin
  obtain ⟨u, rfl⟩ := hsim.seen hi
  obtain ⟨v, rfl⟩ := hsim.seen hj
  have h2 := Schedule.two_le_of_applied hm
  exact Schedule.applied_agree h2 (((Schedule.ofList as).raftOk h2 u i).applier.applied m hm)
    (((Schedule.ofList as).raftOk h2 v j).applier.applied m' hm') hidx

theorem apply_eq_restarted : ∃ r r' : Raft 2 ℕ, Seen restarted p₀ r ∧ Seen restarted p₁ r' ∧
    (⟨1, some 7⟩ ∈ r.applyCh ∧ ⟨1, some 7⟩ ∈ r'.applyCh) ∧ (some 7 : Option ℕ) = some 7 := by
  obtain ⟨s, x, y, h, -⟩ := of_restarted (P := fun _ _ _ => True) (by decide +kernel)
  obtain ⟨r, hr, hch⟩ := seen_take (t := restarted) (k := 80) (i := p₀) (f := Raft.applyCh)
    (by decide +kernel : _ = some [⟨1, some 7⟩])
  obtain ⟨r', hr', hch'⟩ := seen_take (t := restarted) (k := 95) (i := p₁) (f := Raft.applyCh)
    (by decide +kernel : _ = some [⟨1, some 7⟩])
  have hm : (⟨1, some 7⟩ : ApplyMsg ℕ) ∈ r.applyCh := by simp [hch]
  have hm' : (⟨1, some 7⟩ : ApplyMsg ℕ) ∈ r'.applyCh := by simp [hch']
  exact ⟨r, r', hr, hr', ⟨hm, hm'⟩,
    apply_eq h orderly_restarted unaltered_restarted hr hr' hm hm' rfl⟩

end Config

end DistSystem
