import DistSystem.Lib.Dedup
import DistSystem.Lib.Fallible
import DistSystem.Proofs.KVLog

/-!
# The store and the applied log

What a prefix of the log makes of an empty store (`RaftKV.replay`) is what every server has after
it, as long as the write to `ack` at the end of `Get` does not lower it (`KeepsAck`): by then the
entry of the `Get` was applied, so the write changes nothing else. A `Get` that comes to its write
only after later requests of its client lowers `ack`, on its own server alone. A log in which every
client's requests first come in the order of their numbers is applied as if each were in it once.
-/

namespace DistSystem.KV

variable {n : ℕ} {s s' : Service n} {a : Action n} {p : Fin n}

/-- What an operation does to a store; nothing is filtered. -/
def Op.run (db : String → String) (op : Op) : String → String :=
  match op.type with
  | .put => Function.update db op.key op.value
  | .append => Function.update db op.key (db op.key ++ op.value)
  | .get => db

/-- Two clients write to one key; requests come again after later ones. -/
def twoClients : List Op :=
  [⟨.put, "k", "x", 0, 0⟩, ⟨.append, "k", "a", 1, 0⟩, ⟨.put, "k", "x", 0, 0⟩,
    ⟨.append, "k", "b", 1, 1⟩, ⟨.append, "k", "a", 1, 0⟩, ⟨.append, "k", "y", 0, 1⟩,
    ⟨.get, "k", "", 1, 2⟩, ⟨.append, "k", "b", 1, 1⟩]

namespace RaftKV

theorem checkDup_iff (kv : RaftKV) (op : Op) :
    kv.checkDup op = true ↔ Dedup.Seen Op.id Op.reqId kv.ack op := by
  unfold checkDup Dedup.Seen
  cases kv.ack op.id <;> simp

theorem apply_ack (kv : RaftKV) (op : Op) :
    (kv.apply op).ack = Dedup.note Op.id Op.reqId kv.ack op := by
  unfold apply Dedup.note
  by_cases h : kv.checkDup op = true
  · rw [if_pos h, if_pos ((kv.checkDup_iff op).1 h)]
  · rw [if_neg h, if_neg (mt (kv.checkDup_iff op).2 h)]
    rfl

theorem apply_congr (kv kv' : RaftKV) (hdb : kv.db = kv'.db) (hack : kv.ack = kv'.ack) (op : Op) :
    (kv.apply op).db = (kv'.apply op).db ∧ (kv.apply op).ack = (kv'.apply op).ack := by
  have hdup : kv.checkDup op = kv'.checkDup op := by
    unfold checkDup
    rw [hack]
  unfold apply
  rw [hdup]
  split_ifs
  · exact ⟨hdb, hack⟩
  · unfold execute
    rw [hdb, hack]
    exact ⟨rfl, rfl⟩

/-- What the operations of a list, taken one by one by `getApply`, make of an empty store. -/
def replay (l : List Op) : RaftKV := l.foldl apply startKVServer

theorem replay_concat (l : List Op) (op : Op) : replay (l ++ [op]) = (replay l).apply op := by
  simp [replay]

/-- The duplicate filter of the server is the one of its log. -/
theorem replay_ack (l : List Op) : (replay l).ack = Dedup.table Op.id Op.reqId l := by
  induction l using List.reverseRecOn with
  | nil => rfl
  | append_singleton l op ih => rw [replay_concat, apply_ack, ih, Dedup.table_concat]

/-- The store is what the operations that pass the filter make of an empty one. -/
theorem replay_db (l : List Op) :
    (replay l).db = (Dedup.passed Op.id Op.reqId l).foldl Op.run fun _ => "" := by
  induction l using List.reverseRecOn with
  | nil => rfl
  | append_singleton l op ih =>
    rw [replay_concat, Dedup.passed_concat, List.foldl_append, ← ih, ← replay_ack]
    unfold apply
    by_cases h : (replay l).checkDup op = true
    · rw [if_pos h, if_pos ((checkDup_iff _ op).1 h)]
      rfl
    · rw [if_neg h, if_neg (mt (checkDup_iff _ op).2 h)]
      rfl

/-- The `getApply` loop over messages with the indices 1, 2 and so on. -/
theorem getApply_loop (l : List Op) : ∃ kv,
    (l.zipIdx 1).foldlM (fun kv x => kv.getApply ⟨x.2, some x.1⟩) startKVServer = .ok kv ∧
      kv.prevIndex = l.length ∧ kv.db = (replay l).db ∧ kv.ack = (replay l).ack := by
  induction l using List.reverseRecOn with
  | nil => exact ⟨startKVServer, rfl, rfl, rfl, rfl⟩
  | append_singleton l op ih =>
    obtain ⟨kv, hkv, hprev, hdb, hack⟩ := ih
    have hindex : ¬ (1 + l.length > 1 ∧ kv.prevIndex ≠ 1 + l.length - 1) := by omega
    obtain ⟨hdb', hack'⟩ := apply_congr { kv with prevIndex := 1 + l.length } _ hdb hack op
    refine ⟨({ kv with prevIndex := 1 + l.length }.apply op).notify (1 + l.length) op,
      ?_, ?_, ?_, ?_⟩
    · rw [List.zipIdx_append, List.zipIdx_singleton, foldlM_concat, hkv]
      simp only [bind, Except.bind, getApply, if_neg hindex]
    · have hsame : ({ kv with prevIndex := 1 + l.length }.apply op).prevIndex = 1 + l.length := by
        unfold apply
        split_ifs <;> rfl
      rw [notify, hsame, List.length_append, List.length_singleton, Nat.add_comm]
    · rw [replay_concat]
      exact hdb'
    · rw [replay_concat]
      exact hack'

/-- Where every client's requests are first logged in the order of their numbers, the loop makes of
an empty store what the operations without the repeated requests do, with no filter; and `ack` has
the largest number of each client. -/
theorem getApply_at_most_once (l : List Op)
    (h : (Dedup.firsts Op.id Op.reqId l).Pairwise fun a b => a.id = b.id → a.reqId < b.reqId) :
    ∃ kv, (l.zipIdx 1).foldlM (fun kv x => kv.getApply ⟨x.2, some x.1⟩) startKVServer = .ok kv ∧
      kv.db = (Dedup.firsts Op.id Op.reqId l).foldl Op.run (fun _ => "") ∧
      ∀ id, kv.ack id = ((l.filter (·.id = id)).map Op.reqId).max? := by
  obtain ⟨kv, hkv, -, hdb, hack⟩ := getApply_loop l
  refine ⟨kv, hkv, ?_, fun id => ?_⟩
  · rw [hdb, replay_db, Dedup.passed_eq_firsts h]
  · rw [hack, replay_ack]
    refine Option.ext fun v => ?_
    rw [List.max?_eq_some_iff, ← Option.mem_def, Dedup.mem_table_iff]
    simp only [List.mem_map, List.mem_filter, decide_eq_true_eq, and_assoc]
    refine and_congr_right fun _ => ⟨?_, fun hmax op hop hid => hmax _ ⟨op, hop, hid, rfl⟩⟩
    rintro hmax _ ⟨op, hop, hid, rfl⟩
    exact hmax op hop hid

theorem getApply_at_most_once_two :
    (Dedup.firsts Op.id Op.reqId twoClients).Pairwise (fun a b => a.id = b.id → a.reqId < b.reqId) ∧
    ∃ kv, (twoClients.zipIdx 1).foldlM (fun kv x => kv.getApply ⟨x.2, some x.1⟩) startKVServer =
        .ok kv ∧
      kv.db "k" = "xaby" ∧ kv.ack 0 = some 1 := by
  have h : (Dedup.firsts Op.id Op.reqId twoClients).Pairwise
      fun a b => a.id = b.id → a.reqId < b.reqId := by decide
  obtain ⟨kv, hkv, hdb, hack⟩ := getApply_at_most_once twoClients h
  refine ⟨h, kv, hkv, ?_, ?_⟩
  · rw [hdb]
    decide
  · rw [hack]
    decide

end RaftKV

/-- A `Get` does not write a smaller number to `ack` than is there. -/
def KeepsAck (s : Service n) (a : Action n) : Prop :=
  ∀ x ∈ s.reading a, ∀ v ∈ (s.nodes x.1.server).kv.ack x.2.id, v ≤ x.2.reqId

instance (s : Service n) (a : Action n) : Decidable (KeepsAck s a) :=
  inferInstanceAs (Decidable (∀ x ∈ s.reading a, ∀ v ∈ _, v ≤ x.2.reqId))

namespace Node

variable {x y : Node} {e : Applied}

theorem entries_concat (h : y.applied = x.applied ++ [e]) : y.entries = x.entries ++ [e.op] := by
  unfold entries
  rw [h, List.map_append]
  rfl

theorem executed_concat (h : y.applied = x.applied ++ [e]) :
    y.executed = x.executed ++ if e.executed then [e.op] else [] := by
  unfold executed
  rw [h, List.filter_append, List.map_append]
  split_ifs with he <;> simp [he]

end Node

/-- The server has what its log makes of an empty store, and has executed what the filter of the log
lets pass. -/
structure Replayed (x : Node) : Prop where
  db : x.kv.db = (RaftKV.replay x.entries).db
  ack : x.kv.ack = (RaftKV.replay x.entries).ack
  executed : x.executed = Dedup.passed Op.id Op.reqId x.entries

namespace Replayed

theorem start (inc : ℕ) : Replayed ⟨.startKVServer, .running, inc, []⟩ := ⟨rfl, rfl, rfl⟩

/-- The filter stops what was applied already. -/
theorem seen {x : Node} (hx : Replayed x) {i : ℕ} {op : Op} (hap : x.HasApplied i op) :
    Dedup.Seen Op.id Op.reqId x.kv.ack op := by
  rw [hx.ack, RaftKV.replay_ack, Dedup.seen_table_iff]
  obtain ⟨e, he, -, rfl⟩ := hap
  exact ⟨e.op, List.mem_map_of_mem he, rfl, le_rfl⟩

theorem apply {x : Node} (hx : Replayed x) {applyMsg : ApplyMsg Op} {op : Op} {kv : RaftKV}
    (hop : applyMsg.command = some op) (hkv : x.kv.getApply applyMsg = .ok kv) :
    Replayed { x with
      kv := kv
      applied := x.applied ++ [⟨applyMsg.index, op, !x.kv.checkDup op⟩] } := by
  obtain ⟨op', hop', rfl⟩ := RaftKV.getApply_eq_ok hkv
  obtain rfl : op = op' := Option.some.inj (hop.symm.trans hop')
  obtain ⟨hdb, hack⟩ :=
    RaftKV.apply_congr { x.kv with prevIndex := applyMsg.index } _ hx.db hx.ack op
  set y : Node := { x with
    kv := ({ x.kv with prevIndex := applyMsg.index }.apply op).notify applyMsg.index op
    applied := x.applied ++ [⟨applyMsg.index, op, !x.kv.checkDup op⟩] }
  have happlied : y.applied = x.applied ++ [⟨applyMsg.index, op, !x.kv.checkDup op⟩] := rfl
  have hentries : y.entries = x.entries ++ [op] := Node.entries_concat happlied
  refine ⟨?_, ?_, ?_⟩
  · rw [hentries, RaftKV.replay_concat]
    exact hdb
  · rw [hentries, RaftKV.replay_concat]
    exact hack
  · rw [Node.executed_concat happlied, hentries, Dedup.passed_concat, hx.executed,
      ← RaftKV.replay_ack, ← hx.ack]
    by_cases hdup : x.kv.checkDup op = true
    · rw [if_pos ((x.kv.checkDup_iff op).1 hdup), hdup]
      rfl
    · rw [if_neg (mt (x.kv.checkDup_iff op).2 hdup), Bool.eq_false_iff.2 hdup]
      rfl

theorem step (hs : Served s) (hkeep : KeepsAck s a) {x : Node} (hx : Replayed (s.nodes p))
    (h : NodeStep s a p x) : Replayed x := by
  cases h with
  | channels hdb hack => exact ⟨hdb.trans hx.db, hack.trans hx.ack, hx.executed⟩
  | get ha hr hp =>
    rename_i h hd args
    subst ha hp
    refine ⟨hx.db, ?_, hx.executed⟩
    -- the write to `ack` changes nothing
    obtain ⟨hh, hl, hphase, hargs⟩ := Service.reader_eq_some hr
    have hap := hs.read hd (List.mem_of_getElem? hh) hphase hl.2.symm
    rw [hargs] at hap
    obtain ⟨v, hv, hle⟩ := hx.seen hap
    have hle' := hkeep (hd, args) hr v hv
    have hack : (s.nodes hd.server).kv.ack args.id = some args.reqId := by
      rw [show args.reqId = v from Nat.le_antisymm hle hle']
      exact hv
    calc Function.update (s.nodes hd.server).kv.ack args.id (some args.reqId)
        = (s.nodes hd.server).kv.ack := by rw [← hack, Function.update_eq_self]
      _ = _ := hx.ack
  | apply hd hop hkv => exact hx.apply hop hkv
  | halt => exact ⟨hx.db, hx.ack, hx.executed⟩
  | restart => exact .start _

end Replayed

namespace Schedule

variable {κ : Schedule n}

theorem replayed (hkeep : κ.Always KeepsAck) : ∀ t p, Replayed (κ.node t p)
  | 0, _ => .start 0
  | t + 1, p => (replayed hkeep t p).step (κ.served t) (hkeep t) ((κ.step t).node p)

/-- A `Get` that lowers `ack` leaves it different from what the log says. -/
theorem keepsAck_of_replayed (h : ∀ t p, (κ.node t p).kv.ack =
    (RaftKV.replay (κ.node t p).entries).ack) : κ.Always KeepsAck := by
  rintro t ⟨hd, args⟩ hread v hv
  obtain ⟨k, ha, -⟩ := Service.reading_eq_some hread
  have hr : (κ.run t).reader k = some (hd, args) := by
    have := hread
    rw [ha] at this
    exact this
  have hnode : κ.node (t + 1) hd.server = { κ.node t hd.server with
      kv := ((κ.node t hd.server).kv.get args).2 } := by
    unfold node
    rw [run, ha]
    simp [Service.exec, hr, Service.answer, Service.setHandler, Service.setNode]
  have hlog := h (t + 1) hd.server
  rw [hnode] at hlog
  have hsame : Function.update (κ.node t hd.server).kv.ack args.id (some args.reqId) =
      (κ.node t hd.server).kv.ack := hlog.trans (h t hd.server).symm
  have hid := congrFun hsame args.id
  rw [Function.update_self] at hid
  have hv' : (κ.node t hd.server).kv.ack args.id = some v := hv
  rw [hv'] at hid
  exact (Option.some.inj hid).ge

/-- The stores and duplicate filters are what the applied logs say just when no `Get` lowers `ack`;
and then two servers with the same applied log have the same store and filter. -/
theorem replicas_agree_iff (κ : Schedule n) :
    ((∀ t p, (κ.node t p).kv.db = (RaftKV.replay (κ.node t p).entries).db ∧
        (κ.node t p).kv.ack = (RaftKV.replay (κ.node t p).entries).ack) ↔ κ.Always KeepsAck) ∧
    (κ.Always KeepsAck → ∀ t u p q, (κ.node t p).entries = (κ.node u q).entries →
      (κ.node t p).kv.db = (κ.node u q).kv.db ∧
        ∀ op, (κ.node t p).kv.checkDup op = (κ.node u q).kv.checkDup op) := by
  refine ⟨⟨fun h => keepsAck_of_replayed fun t p => (h t p).2, fun hkeep t p => ?_⟩,
    fun hkeep t u p q heq => ?_⟩
  · have hx := replayed hkeep t p
    exact ⟨hx.db, hx.ack⟩
  · have hx := replayed hkeep t p
    have hy := replayed hkeep u q
    refine ⟨by rw [hx.db, hy.db, heq], fun op => ?_⟩
    unfold RaftKV.checkDup
    rw [hx.ack, hy.ack, heq]

theorem replicas_agree_iff_appendThenGet :
    ((ofList appendThenGet).node 19 first).entries =
      ((ofList appendThenGet).node 19 second).entries ∧
    ((ofList appendThenGet).node 19 first).kv.db =
      ((ofList appendThenGet).node 19 second).kv.db := by
  have heq : ((ofList appendThenGet).node 19 first).entries =
      ((ofList appendThenGet).node 19 second).entries := by decide +kernel
  have hkeep : (ofList appendThenGet).Always KeepsAck :=
    always_ofList (fun _ _ h => nomatch h) (by decide +kernel)
  exact ⟨heq, ((replicas_agree_iff (ofList appendThenGet)).2 hkeep 19 19 first second heq).1⟩

end Schedule

/-- What is logged in `slowGet`. -/
def slowGetLog : ℕ → Op
  | 0 | 1 => ⟨.get, "k", "", 0, 0⟩
  | _ => ⟨.append, "k", "x", 0, 1⟩

/-- A `Get` is answered at the second try, while the handler of the first has not come to its write.
The Clerk goes on to append; that too is logged twice, and the slow handler writes in between. -/
def slowGet : List (Action 2) :=
  [.invoke 0 (.get "k"), .call 0, .dispatch 0, .start 0 (some 1), .lookup 0,
    .apply first ⟨1, some (slowGetLog 0)⟩, .receive 0, .fail 0,
    .call 0, .dispatch 0, .start 1 none, .reply 0,
    .call 0, .dispatch 0, .start 2 (some 2), .lookup 2, .apply first ⟨2, some (slowGetLog 1)⟩,
    .receive 2, .read 2, .reply 0,
    .invoke 0 (.append "k" "x"), .call 1, .dispatch 0, .start 3 (some 3), .lookup 3,
    .apply first ⟨3, some (slowGetLog 2)⟩, .fail 1,
    .call 1, .dispatch 0, .start 4 none, .reply 0, .call 1, .dispatch 0, .start 5 (some 4),
    .read 0, .apply first ⟨4, some (slowGetLog 3)⟩,
    .apply second ⟨1, some (slowGetLog 0)⟩, .apply second ⟨2, some (slowGetLog 1)⟩,
    .apply second ⟨3, some (slowGetLog 2)⟩, .apply second ⟨4, some (slowGetLog 3)⟩]

/-- The first server has executed the append twice, the second once, after the same log. -/
theorem slowGet_diverges :
    (Schedule.ofList slowGet).Always OneAtATime ∧
    (Schedule.ofList slowGet).Always (FromLog slowGetLog) ∧
    Function.Injective (Schedule.ofList slowGet).id ∧
    ((Schedule.ofList slowGet).node 40 first).entries =
      ((Schedule.ofList slowGet).node 40 second).entries ∧
    ((Schedule.ofList slowGet).node 40 first).kv.db "k" = "xx" ∧
    ((Schedule.ofList slowGet).node 40 second).kv.db "k" = "x" := by
  refine ⟨Schedule.always_ofList (fun _ _ h => nomatch h) (by decide +kernel),
    Schedule.always_ofList (fun _ _ h => nomatch h) (by decide +kernel), fun _ _ h => h, ?_⟩
  decide +kernel

end DistSystem.KV
