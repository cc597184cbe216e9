import DistSystem.Proofs.ConfigStep

/-!
# The messages under way

A message that waits to be sent, or is in a call, is a request of the instance whose goroutine has
it; an answer is for the server that this instance is. A call on its way has found a server that
runs an instance of the server the request is for.
-/

namespace DistSystem

open Interleaving LabRPC

variable {n : ℕ} {C : Type}

/-! ## Encoding -/

/-- Encoding can change the entries of a message and nothing else. -/
theorem Draft.encode_eq (m : Memory C) (d : Draft n C) :
    (d.encode m).inst = d.item.inst ∧ (d.encode m).msg.isResp = d.item.msg.isResp ∧
      (d.encode m).msg.caller = d.item.msg.caller ∧ (d.encode m).msg.dst = d.item.msg.dst := by
  obtain ⟨⟨q, msg⟩, _ | slice⟩ := d
  · exact ⟨rfl, rfl, rfl, rfl⟩
  · cases msg <;> exact ⟨rfl, rfl, rfl, rfl⟩

namespace Wiring

/-- The server object `p` is for the server `i`. -/
def Serves (v : Wiring n) (i : Fin n) (p : ℕ) : Prop :=
  ∃ q ends, v.receivers[p]? = some q ∧ v.instances[q]? = some (i, ends)

/-- The message belongs to a call of the instance that has it. -/
def Owns (v : Wiring n) (it : Item n C) : Prop :=
  ∃ ends, v.instances[it.inst]? = some (it.msg.caller, ends)

/-- A route to a server that the request `m` is for. -/
def Found (v : Wiring n) (m : Message n C) (rt : Route (Fin n)) : Prop :=
  rt.servername = m.dst ∧ v.Serves m.dst rt.server

/-- An answer to the request `m`. -/
def Answers (m resp : Message n C) : Prop := resp.isResp = true ∧ resp.caller = m.caller

/-- Where a call of the request `m` can be. -/
def Carries (v : Wiring n) (m : Message n C) : Stage (Fin n) (Message n C) →
    Handler (Message n C) → Prop
  | .reading, .unborn => True
  | .refusing, .unborn => True
  | .delaying rt, .unborn => v.Found m rt
  | .waiting rt, .dispatching p => p = rt.server ∧ v.Found m rt
  | .waiting rt, .running p => p = rt.server ∧ v.Found m rt
  | .waiting rt, .returned p resp => p = rt.server ∧ v.Found m rt ∧ Answers m resp
  | .checking rt (some resp), .ended _ => v.Found m rt ∧ Answers m resp
  | .deciding _ resp, .ended _ => Answers m resp
  | .holding resp, .ended _ => Answers m resp
  | .replying (some resp), .ended _ => Answers m resp
  | .replied (some _), .ended _ => True
  | .checking _ none, .dispatching p => v.Serves m.dst p
  | .checking _ none, .running p => v.Serves m.dst p
  | .checking _ none, .returned _ _ => True
  | .replying none, .dispatching p => v.Serves m.dst p
  | .replying none, .running p => v.Serves m.dst p
  | .replying none, _ => True
  | .replied none, .dispatching p => v.Serves m.dst p
  | .replied none, .running p => v.Serves m.dst p
  | .replied none, _ => True
  | _, _ => False

structure CallOk (v : Wiring n) (c : Call ℕ (Fin n) (Item n C) (Message n C)) : Prop where
  request : c.req.args.msg.isResp = false
  owner : ∃ ends, v.instances[c.req.args.inst]? = some (c.req.args.msg.caller, ends) ∧
    c.req.endname = ends c.req.args.msg.dst
  carries : v.Carries c.req.args.msg c.stage c.handler

/-- Instances and servers are only added. -/
structure Grows (v v' : Wiring n) : Prop where
  instances : ∀ (q : ℕ) (x : Fin n × (Fin n → ℕ)), v.instances[q]? = some x →
    v'.instances[q]? = some x
  receivers : ∀ p q : ℕ, v.receivers[p]? = some q → v'.receivers[p]? = some q

variable {v v' : Wiring n} {m : Message n C} {st : Stage (Fin n) (Message n C)}
  {hd : Handler (Message n C)} {c c' : Call ℕ (Fin n) (Item n C) (Message n C)}

theorem Serves.mono (hg : Grows v v') {i : Fin n} {p : ℕ} (h : v.Serves i p) : v'.Serves i p := by
  obtain ⟨q, ends, hp, hq⟩ := h
  exact ⟨q, ends, hg.receivers p q hp, hg.instances q _ hq⟩

theorem Found.mono (hg : Grows v v') {rt : Route (Fin n)} (h : v.Found m rt) : v'.Found m rt :=
  ⟨h.1, h.2.mono hg⟩

theorem Owns.mono (hg : Grows v v') {it : Item n C} (h : v.Owns it) : v'.Owns it := by
  obtain ⟨ends, hq⟩ := h
  exact ⟨ends, hg.instances _ _ hq⟩

theorem Carries.mono (hg : Grows v v') (h : v.Carries m st hd) : v'.Carries m st hd := by
  rcases st with _ | _ | rt | rt | ⟨rt, _ | r⟩ | ⟨rt, r⟩ | r | ⟨_ | r⟩ | ⟨_ | r⟩ <;> cases hd <;>
    first
    | exact h
    | exact Serves.mono hg h
    | exact Found.mono hg h
    | exact ⟨h.1, Found.mono hg h.2⟩
    | exact ⟨Found.mono hg h.1, h.2⟩
    | exact ⟨h.1, Found.mono hg h.2.1, h.2.2⟩

theorem CallOk.mono (hg : Grows v v') (h : v.CallOk c) : v'.CallOk c := by
  obtain ⟨ends, hq, hend⟩ := h.owner
  exact ⟨h.request, ⟨ends, hg.instances _ _ hq, hend⟩, h.carries.mono hg⟩

end Wiring

namespace Config

open Wiring

variable {s s' : Config n C} {e : Config.Event n C}
  {c c' : Call ℕ (Fin n) (Item n C) (Message n C)} {k : ℕ}

/-- What a call that has found a server knows about it. -/
theorem route_of_readEndnameInfo (hv : s.wiring.Sane) (hc : s.wiring.CallOk c)
    {rt : Route (Fin n)} (h : s.net.readEndnameInfo c.req.endname = some rt) :
    s.wiring.Found c.req.args.msg rt ∧
      s.rafts c.req.args.msg.caller = some c.req.args.inst := by
  obtain ⟨ends, hq, hend⟩ := hc.owner
  obtain ⟨hen, hname, hserver⟩ := Network.readEndnameInfo_eq_some h
  rw [hend] at hname hen
  obtain hdst := Option.some.inj (hname.symm.trans (hv.wired _ _ _ hq _).2)
  obtain ⟨q, hp, hcur⟩ := hv.served _ _ hserver
  obtain ⟨ends', hq', -⟩ := hv.current _ _ hcur
  rw [hdst] at hq'
  refine ⟨⟨hdst, q, ends', hp, hq'⟩, ?_⟩
  by_contra hne
  exact Bool.false_ne_true ((hv.off _ _ _ hq hne _).symm.trans hen)

/-- A step keeps a call in order, if the method returns an answer to its request. -/
theorem callOk_goes {ev : LabRPC.Event ℕ (Fin n) (Item n C) (Message n C)} (hv : s.wiring.Sane)
    (hc : s.wiring.CallOk c) (hgo : c.Goes s.net k ev c')
    (hret : ∀ resp, ev = .proceed k (.ret resp) → Answers c.req.args.msg resp) :
    s.wiring.CallOk c' := by
  refine ⟨hgo.req ▸ hc.request, hgo.req ▸ hc.owner, ?_⟩
  have hcar := hc.carries
  cases hgo with
  | stay => exact hcar
  | alive => exact hcar
  | @read req hd rt hrt =>
    have hroute := route_of_readEndnameInfo hv hc hrt
    cases hd <;> first | exact hcar.elim | exact hroute.1
  | @refuse req hd => cases hd <;> first | exact hcar.elim | trivial
  | @timeout req hd => cases hd <;> first | exact hcar.elim | trivial
  | @drop req hd => cases hd <;> first | exact hcar.elim | trivial
  | @dispatch req hd => cases hd <;> first | exact hcar.elim | exact ⟨rfl, hcar⟩
  | @enter req st server =>
    rcases st with _ | _ | rt | rt | ⟨rt, _ | r⟩ | ⟨rt, r⟩ | r | ⟨_ | r⟩ | ⟨_ | r⟩ <;> exact hcar
  | @ret req st server resp =>
    have hans := hret resp rfl
    rcases st with _ | _ | rt | rt | ⟨rt, _ | r⟩ | ⟨rt, r⟩ | r | ⟨_ | r⟩ | ⟨_ | r⟩ <;>
      first | exact hcar.elim | trivial | exact ⟨hcar.1, hcar.2, hans⟩
  | recv => exact hcar.2
  | @dead req rt hd =>
    cases hd <;> first | exact hcar.elim | trivial | exact hcar.1 ▸ hcar.2.2
  | @pass req rt resp hd => cases hd <;> first | exact hcar.elim | exact hcar.2
  | @fail req rt resp hd => cases hd <;> first | exact hcar.elim | trivial
  | @giveUp req rt hd => cases hd <;> first | exact hcar.elim | exact hcar
  | @lose req rt resp hd => cases hd <;> first | exact hcar.elim | trivial
  | @hold req rt resp hd => cases hd <;> first | exact hcar.elim | exact hcar
  | @wake req resp hd => cases hd <;> first | exact hcar.elim | exact hcar
  | @deliver req rt resp hd => cases hd <;> first | exact hcar.elim | exact hcar
  | @reply req rep hd =>
    rcases rep with _ | resp <;> cases hd <;> first | exact hcar.elim | exact hcar | trivial

/-- Every message is where it belongs. -/
structure Mail (s : Config n C) : Prop where
  outbox : ∀ d ∈ s.outbox, d.item.msg.isResp = false ∧ s.wiring.Owns d.item
  inbox : ∀ it ∈ s.inbox, it.msg.isResp = true ∧ s.wiring.Owns it
  calls : ∀ (k : ℕ) c, s.net.calls[k]? = some c → s.wiring.CallOk c

theorem mail_init : (init : Config n C).Mail where
  outbox := by simp [init]
  inbox := by simp [init]
  calls := by simp [init, Network.makeNetwork]

theorem Operates.grows {op : Op n} (h : s.Operates op s') : Grows s.wiring s'.wiring := by
  cases h with
  | make hn rnd =>
    refine ⟨fun q x hx => ?_, fun _ _ => id⟩
    simp only [Config.wiring, List.map_append]
    exact getElem?_concat_of_some hx
  | addServer => exact ⟨fun _ _ => id, fun p q hp => getElem?_concat_of_some hp⟩
  | _ => exact ⟨fun _ _ => id, fun _ _ => id⟩

/-- The tester handles no messages. -/
theorem Operates.mail {op : Op n} (h : s.Operates op s') :
    s'.outbox = s.outbox ∧ s'.inbox = s.inbox ∧ s'.net.calls = s.net.calls := by
  cases h <;> exact ⟨rfl, rfl, rfl⟩

theorem Mail.of_wiring (hw : s'.wiring = s.wiring)
    (hout : ∀ d ∈ s'.outbox, d.item.msg.isResp = false ∧ s.wiring.Owns d.item)
    (hin : ∀ it ∈ s'.inbox, it.msg.isResp = true ∧ s.wiring.Owns it)
    (hcalls : ∀ (k : ℕ) c, s'.net.calls[k]? = some c → s.wiring.CallOk c) : s'.Mail := by
  rw [← hw] at hout hin hcalls
  exact ⟨hout, hin, hcalls⟩

/-- The requests that an event loop sends are its own. -/
theorem Mail.requests (hm : s.Mail) {q : ℕ} {r r' : Raft n C} {msgs : List (Message n C)}
    (hq : s.ready q = some r) (hr : Raft.Requests r r' msgs) :
    ∀ d ∈ (s.post q r' msgs).outbox, d.item.msg.isResp = false ∧ s.wiring.Owns d.item := by
  obtain ⟨x, hx, rfl, -⟩ := ready_eq_some hq
  intro d hd
  rcases List.mem_append.mp hd with hit | hit
  · exact hm.outbox d hit
  · obtain ⟨m, hmem, rfl⟩ := List.mem_map.mp hit
    refine ⟨hr.isResp m hmem, x.ends, ?_⟩
    show s.wiring.instances[q]? = some (m.caller, x.ends)
    rw [hr.caller m hmem]
    exact wiring_getElem? hx

/-- A step of the network keeps the calls in order. -/
theorem Mail.net (hm : s.Mail) (hv : s.wiring.Sane)
    {ev : LabRPC.Event ℕ (Fin n) (Item n C) (Message n C)}
    {net : Network ℕ (Fin n) (Item n C) (Message n C)} (h : Network.step ev s.net = some net)
    (hcall : ∀ req, ev = .call req → s.wiring.CallOk ⟨req, .reading, .unborn⟩)
    (hret : ∀ (k : ℕ) c resp, s.net.calls[k]? = some c → ev = .proceed k (.ret resp) →
      Answers c.req.args.msg resp) (k : ℕ) (c)
    (hc : net.calls[k]? = some c) : s.wiring.CallOk c := by
  rcases Network.call_of_step h hc with ⟨-, req, rfl, rfl⟩ | ⟨c₀, hc₀, hgo⟩
  · exact hcall req rfl
  · exact callOk_goes hv (hm.calls k c₀ hc₀) hgo fun resp => hret k c₀ resp hc₀

theorem Mail.step (hm : s.Mail) (hv : s.wiring.Sane) (h : s.Moves e s') : s'.Mail := by
  cases h with
  | panic hin => exact ⟨hm.outbox, fun it hit => hm.inbox it (hin.subset hit), hm.calls⟩
  | command => exact ⟨hm.outbox, hm.inbox, hm.calls⟩
  | operate hs hop =>
    have hop := operates_of_operate hop
    obtain ⟨hout, hin, hcalls⟩ := hop.mail
    have hg := hop.grows
    refine ⟨fun it hit => ?_, fun it hit => ?_, fun k c hc => ?_⟩
    · rw [hout] at hit
      exact ⟨(hm.outbox it hit).1, (hm.outbox it hit).2.mono hg⟩
    · rw [hin] at hit
      exact ⟨(hm.inbox it hit).1, (hm.inbox it hit).2.mono hg⟩
    · rw [hcalls] at hc
      exact (hm.calls k c hc).mono hg
  | tick hq ht =>
    have hreq := Raft.tick_requests ht
    exact .of_wiring (wiring_of_ready hq hreq.me) (hm.requests hq hreq) hm.inbox hm.calls
  | start hq ht =>
    have hreq := Raft.handleStart_requests ht
    exact .of_wiring (wiring_of_ready hq hreq.me) (hm.requests hq hreq) hm.inbox hm.calls
  | stateMachine hx hr =>
    exact .of_wiring (wiring_setRaft hx (Raft.stateMachine_me hr)) hm.outbox hm.inbox hm.calls
  | @call g d x net hg hx hnet =>
    obtain ⟨hreq, ends, hq⟩ := hm.outbox d (List.mem_of_getElem? hg)
    obtain ⟨y, hy, -, rfl⟩ := of_wiring_getElem? hq
    obtain rfl := Option.some.inj (hx.symm.trans hy)
    refine .of_wiring ((sameWires_call hnet).wiring s.inbox _)
      (fun d hd => hm.outbox d (List.mem_of_mem_eraseIdx hd)) hm.inbox
      (hm.net hv hnet (fun req heq => ?_) fun _ _ _ _ heq => by cases heq)
    cases heq
    obtain ⟨hinst, hresp, hcaller, hdst⟩ := d.encode_eq x.memory
    refine ⟨hresp.trans hreq, ⟨x.ends, ?_, congrArg x.ends hdst.symm⟩, trivial⟩
    rw [hinst, hcaller]
    exact hq
  | enter hnet =>
    exact .of_wiring ((sameWires_enter hnet).wiring s.inbox s.outbox) hm.outbox hm.inbox
      (hm.net hv hnet (fun _ heq => by cases heq) fun _ _ _ _ heq => by cases heq)
  | abort hnet =>
    exact .of_wiring ((sameWires_abort hnet).wiring s.inbox s.outbox) hm.outbox hm.inbox
      (hm.net hv hnet (fun _ heq => by cases heq) fun _ _ _ _ heq => by cases heq)
  | proceed hx hnet =>
    refine .of_wiring ((sameWires_proceed hnet).wiring s.inbox s.outbox) hm.outbox hm.inbox
      (hm.net hv hnet (fun _ heq => by cases heq) fun _ _ resp _ heq => ?_)
    cases heq
    exact absurd rfl (hx resp)
  | @handle k rnd server q req st r r' resp rest net hc hs hq hr hnet =>
    -- The method returns the one answer of `Step`.
    have hreq := (hm.calls k _ hc).request
    obtain ⟨hme, resp', hmsgs, hans⟩ := Raft.step_reply hreq hr
    obtain ⟨rfl, -⟩ := List.cons.inj hmsgs
    refine .of_wiring ?_ hm.outbox hm.inbox
      (hm.net hv hnet (fun _ heq => by cases heq) fun k' c resp' hc' heq => ?_)
    · rw [← wiring_of_ready hq hme]
      exact SameWires.wiring (s := s.setRaft _ _) (sameWires_proceed hnet) s.inbox s.outbox
    · cases heq
      obtain rfl := Option.some.inj (hc.symm.trans hc')
      exact hans
  | @answer k req resp hd net hc hnet =>
    have hok := hm.calls k _ hc
    refine .of_wiring ((sameWires_proceed hnet).wiring _ s.outbox) hm.outbox (fun it hit => ?_)
      (hm.net hv hnet (fun _ heq => by cases heq) fun _ _ _ _ heq => by cases heq)
    rcases List.mem_append.mp hit with hit | hit
    · exact hm.inbox it hit
    · obtain rfl := List.mem_singleton.mp hit
      obtain ⟨ends, hq, -⟩ := hok.owner
      have hcar := hok.carries
      cases hd with
      | ended =>
        refine ⟨hcar.1, ends, ?_⟩
        rw [hcar.2]
        exact hq
      | _ => exact hcar.elim
  | @respond g rnd it r r' msgs hg hq hr =>
    have hit := hm.inbox it (List.mem_of_getElem? hg)
    have hreq := Raft.step_requests hit.1 hr
    exact .of_wiring (wiring_of_ready hq hreq.me) (hm.requests hq hreq)
      (fun it hit => hm.inbox it (List.mem_of_mem_eraseIdx hit)) hm.calls

end Config

end DistSystem
