import Swarm.Engine.Core
import Swarm.Engine.Footprint
import Swarm.Lib.Runs
import Swarm.Store.Forward

/-!
# Grafts for records that are missing

An announcement is tracked while the store has nothing as new, and `processGrafts` asks for the
record once it is due. It does not look at the store again: only the push of the very record clears
the announcement. A record that arrives in a range reply, or a newer one for its slot, leaves it
pending, and the graft is sent for a record the node holds.

`grafts_missing_iff`: that is the one way it happens. An announcement is grafted at most once as
long as it is tracked.
-/

namespace Swarm

/-- The store holds nothing as new as what was announced. -/
def RecordStore.Lacks (s : RecordStore) (k : IHaveKey) : Prop :=
  ∀ cur, s.getRawKeyed k.topic k.nodeID k.key = some cur → cur.hlc < k.hlc

/-- The graft for an announcement. -/
def IHaveKey.graft (k : IHaveKey) : Frame := frameGraft k.topic k.nodeID k.key k.hlc

theorem IHaveKey.graft_inj {k k' : IHaveKey} (h : k.graft = k'.graft) : k = k' := by
  cases k
  cases k'
  cases h
  rfl

/-! ## The grafts of a tick -/

/-- What `processGrafts` sends for an entry. -/
def graftOf (env : Env) (now : Time) (e : (_ : IHaveKey) × IHaveEntry) : Option (NodeID × Frame) :=
  if Node.ihaveDue env now e.2 then
    some (e.2.announcer, if e.1.graft.encodes then e.1.graft else .empty)
  else none

theorem trace_graftDue (env : Env) (now : Time) (n : Node)
    (l : List ((_ : IHaveKey) × IHaveEntry)) :
    (l.foldl (Node.graftDue env now) n).trace =
      n.trace ++ (l.filterMap (graftOf env now)).map fun m => .send m.1 m.2 := by
  induction l generalizing n with
  | nil => simp
  | cons e l ih =>
    rw [List.foldl_cons, ih]
    unfold Node.graftDue
    by_cases hdue : Node.ihaveDue env now e.2 = true
    · rw [if_pos hdue, List.filterMap_cons_some (show graftOf env now e = some _ from if_pos hdue),
        List.map_cons, ← List.singleton_append, ← List.append_assoc]
      rfl
    · rw [if_neg hdue, List.filterMap_cons_none (show graftOf env now e = none from if_neg hdue)]

theorem sends_map (l : List (NodeID × Frame)) : sends (l.map fun m => .send m.1 m.2) = l := by
  induction l with
  | nil => rfl
  | cons m l ih => rw [List.map_cons, sends, ih]

theorem sentSince_processGrafts (n : Node) (env : Env) (now : Time) :
    n.sentSince (n.processGrafts env now) =
      n.missingIHaves.entries.filterMap (graftOf env now) := by
  have htrace : (n.processGrafts env now).trace = _ :=
    trace_graftDue env now n n.missingIHaves.entries
  unfold Node.sentSince
  rw [htrace, List.drop_left, sends_map]

/-- A graft is sent for an announcement that is due and whose strings encode. -/
theorem graftOf_eq_some {env : Env} {now : Time} {e : (_ : IHaveKey) × IHaveEntry} {dst : NodeID}
    {k : IHaveKey} (h : graftOf env now e = some (dst, k.graft)) :
    e.1 = k ∧ Node.ihaveDue env now e.2 = true ∧ k.graft.encodes = true := by
  unfold graftOf at h
  split_ifs at h with hdue henc
  · have hk : e.1 = k := IHaveKey.graft_inj (Prod.ext_iff.mp (Option.some.inj h)).2
    exact ⟨hk, hdue, hk ▸ henc⟩
  · cases h

theorem mem_grafts_iff {n : Node} {env : Env} {now : Time} {k : IHaveKey} :
    (∃ dst, (dst, k.graft) ∈ n.sentSince (n.processGrafts env now)) ↔
      ∃ e, n.missingIHaves.lookup k = some e ∧ Node.ihaveDue env now e = true ∧
        k.graft.encodes = true := by
  rw [sentSince_processGrafts]
  constructor
  · rintro ⟨dst, hmem⟩
    obtain ⟨⟨k', e⟩, he, hgraft⟩ := List.mem_filterMap.mp hmem
    obtain ⟨rfl, hdue, henc⟩ := graftOf_eq_some hgraft
    exact ⟨e, FMap.lookup_eq_some_iff.mpr he, hdue, henc⟩
  · rintro ⟨e, he, hdue, henc⟩
    refine ⟨e.announcer, List.mem_filterMap.mpr ⟨⟨k, e⟩, FMap.lookup_eq_some_iff.mp he, ?_⟩⟩
    unfold graftOf
    rw [if_pos hdue, if_pos henc]

/-! ## What is asked for is missing -/

/-- Whenever `processGrafts` runs, it sends grafts for records the store lacks. -/
def GraftsMissing (env : Env) (n : Node) : Prop :=
  ∀ now dst (k : IHaveKey), (dst, k.graft) ∈ n.sentSince (n.processGrafts env now) →
    n.store.Lacks k

/-- Some tick grafts the announcement. -/
def Graftable (env : Env) (k : IHaveKey) (e : IHaveEntry) : Prop :=
  k.graft.encodes = true ∧ ∃ now, Node.ihaveDue env now e = true

theorem graftsMissing_iff {env : Env} {n : Node} :
    GraftsMissing env n ↔
      ∀ k e, n.missingIHaves.lookup k = some e → Graftable env k e → n.store.Lacks k := by
  constructor
  · rintro h k e he ⟨henc, now, hdue⟩
    obtain ⟨dst, hsent⟩ := mem_grafts_iff.mpr ⟨e, he, hdue, henc⟩
    exact h now dst k hsent
  · intro h now dst k hsent
    obtain ⟨e, he, hdue, henc⟩ := mem_grafts_iff.mp ⟨dst, hsent⟩
    exact h k e he ⟨henc, now, hdue⟩

/-- The operation is the push of the very record that was announced. -/
def NodeOp.Answers (env : Env) (n : Node) (k : IHaveKey) : NodeOp → Prop
  | .receive rd _ (.eager (some r) ttl) =>
    n.stopped = false ∧ (frameEagerPush r ttl).encodes = true ∧ Accepts env n rd r ∧
      ihaveKeyOf r = k
  | _ => False

/-- The operation brings a record: one of its calls on the store writes it, where the calls before
it leave the store. -/
def NodeOp.Brings (env : Env) (n : Node) (op : NodeOp) (w : Record) : Prop :=
  ∃ front c back, op.passes env n = front ++ c :: back ∧
    Puts env.storeCfg (front.foldl (applyCall env.storeCfg) n.store) c w

/-- The record belongs to the slot that was announced and is as new. -/
def IHaveKey.MetBy (k : IHaveKey) (w : Record) : Prop :=
  slotOf w = (k.topic, ⟨k.nodeID, k.key⟩) ∧ k.hlc ≤ w.hlc

/-- The operation brings a record as new as a pending announcement, and does not answer it. -/
def NodeOp.Outruns (env : Env) (n : Node) (op : NodeOp) : Prop :=
  ∃ k e, n.missingIHaves.lookup k = some e ∧ Graftable env k e ∧ ¬op.Answers env n k ∧
    ∃ w, op.Brings env n w ∧ k.MetBy w

/-! ## The store after an operation -/

theorem store_exec_calm (env : Env) (n : Node) {op : NodeOp} (hop : op.calls = false) :
    (op.exec env n).store = n.store :=
  (Calm.store env n.store).exec hop rfl

section Lacks

variable {cfg : StoreConfig} {s s' : RecordStore} {k : IHaveKey}

theorem lacks_iff_slotView : s.Lacks k ↔
    ∀ cur, s.slotView (k.topic, ⟨k.nodeID, k.key⟩) = some cur → cur.hlc < k.hlc := by
  unfold RecordStore.Lacks
  simp only [slotView_eq_getRawKeyed]

/-- What is missing now was missing while the slots were older. -/
theorem lacks_of_below (h : s'.Lacks k)
    (hle : LastWriter.Below rankOf s.slotView s'.slotView) : s.Lacks k := by
  rw [lacks_iff_slotView] at h ⊢
  intro cur hcur
  obtain ⟨z, hz, hrank⟩ := hle _ cur hcur
  have hclock : cur.hlc ≤ z.hlc := by
    rcases (rankOf_le_iff cur z).mp hrank with hlt | ⟨heq, -⟩
    · exact hlt.le
    · exact heq.le
  exact lt_of_le_of_lt hclock (h z hz)

/-- A record stays missing through a call exactly when the call does not write it. -/
theorem lacks_applyCall_iff (h : s.Lacks k) (c : Int64 × Record) :
    (applyCall cfg s c).Lacks k ↔ ∀ w, Puts cfg s c w → ¬k.MetBy w := by
  rw [lacks_iff_slotView] at h ⊢
  constructor
  · rintro hafter w hput ⟨hslot, hnew⟩
    have hin := hput.slotView
    rw [hslot] at hin
    exact absurd (hafter w hin) (not_lt.mpr hnew)
  · intro hno cur hcur
    rcases puts_of_slotView hcur with hold | ⟨hput, hslot⟩
    · exact h cur hold
    · exact lt_of_not_ge fun hnew => hno cur hput ⟨hslot, hnew⟩

theorem lacks_foldl_iff (h : s.Lacks k) (calls : List (Int64 × Record)) :
    (calls.foldl (applyCall cfg) s).Lacks k ↔
      Runs.StepsMeet (applyCall cfg) (fun s c => ∀ w, Puts cfg s c w → ¬k.MetBy w) s calls := by
  induction calls generalizing s with
  | nil => exact iff_of_true h trivial
  | cons c calls ih =>
    rw [List.foldl_cons, Runs.StepsMeet, ← lacks_applyCall_iff h]
    constructor
    · intro hend
      have hnext := lacks_of_below hend (below_foldl cfg _ calls)
      exact ⟨hnext, (ih hnext).mp hend⟩
    · rintro ⟨hnext, hrest⟩
      exact (ih hnext).mpr hrest

/-- Retention drops records only. -/
theorem lacks_reapExpired (h : s.Lacks k) (nowMs : Int64) (ttlFor : Option (Topic → Duration)) :
    (reapExpired nowMs ttlFor s).2.Lacks k := by
  rw [lacks_iff_slotView] at h ⊢
  exact fun cur hcur => h cur (slotView_of_reapExpired hcur)

end Lacks

/-- What passes nothing brings nothing. -/
theorem not_brings_of_nil {env : Env} {n : Node} {op : NodeOp} (h : op.passes env n = [])
    (w : Record) : ¬op.Brings env n w := by
  rintro ⟨front, c, back, hpasses, -⟩
  rw [h] at hpasses
  cases front <;> cases hpasses

/-- A record stays missing through an operation exactly when the operation does not bring it. -/
theorem lacks_exec_iff {env : Env} {n : Node} {op : NodeOp} {k : IHaveKey}
    (h : n.store.Lacks k) :
    (op.exec env n).store.Lacks k ↔ ∀ w, op.Brings env n w → ¬k.MetBy w := by
  cases hop : op.reaps with
  | false =>
    rw [store_exec_passes env n hop, lacks_foldl_iff h, Runs.stepsMeet_iff_forall_split]
    constructor
    · rintro hsteps w ⟨front, c, back, hpasses, hput⟩
      exact hsteps front c back hpasses w hput
    · intro hno front c back hpasses w hput
      exact hno w ⟨front, c, back, hpasses, hput⟩
  | true =>
    have hnil : op.passes env n = [] := by
      cases op with
      | tickLoop rd => rfl
      | reap nowMs ttlFor => rfl
      | _ => cases hop
    refine iff_of_true ?_ fun w hw => absurd hw (not_brings_of_nil hnil w)
    cases op with
    | tickLoop rd =>
      have hsame : ((n.processGrafts env rd.wall).merkleTick env rd).store = n.store :=
        (Calm.store env n.store).ticks rd rd.wall rfl
      show (n.tickLoop env rd).store.Lacks k
      unfold Node.tickLoop
      dsimp only
      split_ifs
      · refine lacks_reapExpired ?_ rd.wallMs env.cfg.topicTTL
        exact hsame.symm ▸ h
      · exact hsame.symm ▸ h
    | reap nowMs ttlFor => exact lacks_reapExpired h nowMs ttlFor
    | _ => cases hop

/-- The time of the tick an operation is. -/
def NodeOp.tickAt : NodeOp → Option Time
  | .tick _ now => some now
  | .tickLoop rd => some rd.wall
  | _ => none

/-- What is missing before a tick is missing after it. -/
theorem lacks_tick {env : Env} {n : Node} {op : NodeOp} {now : Time} (hop : op.tickAt = some now)
    {k : IHaveKey} (h : n.store.Lacks k) : (op.exec env n).store.Lacks k := by
  have hnil : op.passes env n = [] := by
    cases op with
    | tick rd now' => rfl
    | tickLoop rd => rfl
    | _ => cases hop
  exact (lacks_exec_iff h).mpr fun w hw => absurd hw (not_brings_of_nil hnil w)

theorem not_outruns_iff {env : Env} {n : Node} {op : NodeOp} (h : GraftsMissing env n) :
    ¬op.Outruns env n ↔ ∀ k e, n.missingIHaves.lookup k = some e → Graftable env k e →
      ¬op.Answers env n k → (op.exec env n).store.Lacks k := by
  rw [graftsMissing_iff] at h
  constructor
  · intro hno k e he hgraft hans
    refine (lacks_exec_iff (h k e he hgraft)).mpr fun w hw hmet => hno ?_
    exact ⟨k, e, he, hgraft, hans, w, hw, hmet⟩
  · rintro hall ⟨k, e, he, hgraft, hans, w, hw, hmet⟩
    exact (lacks_exec_iff (h k e he hgraft)).mp (hall k e he hgraft hans) w hw hmet

/-! ## The pending announcements after an operation -/

theorem pending_promote (n : Node) (env : Env) (peer : NodeID) :
    (n.promoteTreeEdgeBounded env peer).missingIHaves = n.missingIHaves := by
  obtain ⟨pt, heq⟩ := n.promoteTreeEdgeBounded_eq env peer
  rw [heq]
  rfl

theorem lookup_ageIHaves (n : Node) (env : Env) (now : Time) (k : IHaveKey) :
    (n.ageIHaves env now).missingIHaves.lookup k = (n.missingIHaves.lookup k).bind fun e =>
      if Node.ihaveExpired now e then none
      else if Node.ihaveDue env now e then some { e with grafted := true } else some e :=
  FMap.lookup_rangeUpdate _ _ k

/-- What an operation other than a tick leaves pending: an answered announcement goes, one new
announcement may come. -/
inductive Pending (env : Env) (n : Node) (op : NodeOp) (m : FMap IHaveKey IHaveEntry) : Prop
  | same (hno : ∀ k, ¬op.Answers env n k) (h : m = n.missingIHaves)
  | answered {k : IHaveKey} (hk : ∀ k', op.Answers env n k' ↔ k' = k)
      (h : m = n.missingIHaves.erase k)
  | announced {k : IHaveKey} {e : IHaveEntry} (hno : ∀ k, ¬op.Answers env n k)
      (hstore : (op.exec env n).store = n.store) (hlacks : n.store.Lacks k)
      (hnew : n.missingIHaves.lookup k = none) (h : m = n.missingIHaves.insert k e)

theorem pending_exec (env : Env) (n : Node) {op : NodeOp} (hop : op.tickAt = none) :
    Pending env n op (op.exec env n).missingIHaves := by
  rw [(sameBooks_exec env n op).pending]
  cases op with
  | receive rd sender f =>
    unfold NodeOp.books
    dsimp only
    split_ifs with hin
    · cases f with
      | eager record ttl =>
        cases record with
        | none => exact .same (fun _ h => h) rfl
        | some r =>
          unfold Frame.books
          dsimp only
          split_ifs with hacc
          · refine .answered (k := ihaveKeyOf r) (fun k' => ?_) ?_
            · exact ⟨fun h => h.2.2.2.symm, fun h => ⟨hin.1, hin.2, hacc, h.symm⟩⟩
            · show AList.erase _ _ = _
              rw [pending_promote]
          · exact .same (fun _ h => hacc h.2.2.1) rfl
      | ihave topic nodeID hlc hash key =>
        rcases n.handleIHave_cases env rd sender ⟨topic, nodeID, key, hlc⟩ with
          heq | ⟨hlacks, hnew, -, heq⟩
        · exact .same (fun _ h => h) (congrArg Node.missingIHaves heq)
        · refine .announced (fun _ h => h) ?_ hlacks hnew (congrArg Node.missingIHaves heq)
          exact store_exec_calm env n rfl
      | graft _ _ _ _ => exact .same (fun _ h => h) (pending_promote n env sender)
      | prune _ => exact .same (fun _ h => h) rfl
      | merkle _ _ _ _ => exact .same (fun _ h => h) rfl
      | merkleRange _ _ _ => exact .same (fun _ h => h) rfl
      | keepalive => exact .same (fun _ h => h) rfl
      | fetchReq _ _ => exact .same (fun _ h => h) rfl
      | fetchResp _ _ _ => exact .same (fun _ h => h) rfl
      | empty => exact .same (fun _ h => h) rfl
    · refine .same (fun k h => ?_) rfl
      unfold NodeOp.Answers at h
      split at h
      · rename_i heq
        cases heq
        exact hin ⟨h.1, h.2.1⟩
      · exact h
  | tick rd now => cases hop
  | tickLoop rd => cases hop
  | publishKeyed => exact .same (fun _ h => h) rfl
  | publishKeyedTombstone => exact .same (fun _ h => h) rfl
  | publishObserverTombstone => exact .same (fun _ h => h) rfl
  | setTenant => exact .same (fun _ h => h) rfl
  | reap => exact .same (fun _ h => h) rfl
  | probePeer => exact .same (fun _ h => h) rfl
  | join peer => exact .same (fun _ h => h) rfl
  | leave peer => exact .same (fun _ h => h) rfl
  | setPaused => exact .same (fun _ h => h) rfl
  | stop => exact .same (fun _ h => h) rfl

/-- A tick ages what is pending. -/
theorem pending_tick (env : Env) (n : Node) {op : NodeOp} {now : Time}
    (hop : op.tickAt = some now) :
    (op.exec env n).missingIHaves = (n.ageIHaves env now).missingIHaves := by
  rw [(sameBooks_exec env n op).pending]
  cases op with
  | tick rd now' =>
    cases hop
    rfl
  | tickLoop rd =>
    cases hop
    rfl
  | _ => cases hop

/-- What a tick leaves graftable was pending as it is. -/
theorem lookup_of_graftable_aged {env : Env} {n : Node} {now : Time} {k : IHaveKey} {e : IHaveEntry}
    (he : (n.ageIHaves env now).missingIHaves.lookup k = some e) (hgraft : Graftable env k e) :
    n.missingIHaves.lookup k = some e := by
  rw [lookup_ageIHaves, Option.bind_eq_some_iff] at he
  obtain ⟨e₀, he₀, hage⟩ := he
  split_ifs at hage with hexp hdue
  · -- marked as grafted, it is never due again
    cases hage
    obtain ⟨-, t, ht⟩ := hgraft
    simp [Node.ihaveDue] at ht
  · cases hage
    exact he₀

/-- One operation keeps the grafts to missing records exactly when it outruns no announcement. -/
theorem graftsMissing_exec_iff (env : Env) (n : Node) (op : NodeOp) (h : GraftsMissing env n) :
    GraftsMissing env (op.exec env n) ↔ ¬op.Outruns env n := by
  rw [not_outruns_iff h]
  rw [graftsMissing_iff] at h ⊢
  cases hop : op.tickAt with
  | some now =>
    -- the store does not grow
    refine iff_of_true (fun k e he hgraft => ?_) fun k e he hgraft _ =>
      lacks_tick hop (h k e he hgraft)
    rw [pending_tick env n hop] at he
    exact lacks_tick hop (h k e (lookup_of_graftable_aged he hgraft) hgraft)
  | none =>
    cases pending_exec env n hop with
    | same hno heq =>
      rw [heq]
      exact ⟨fun hall k e he hg _ => hall k e he hg, fun hall k e he hg => hall k e he hg (hno k)⟩
    | answered hk heq =>
      rw [heq]
      refine ⟨fun hall k e he hg hans => hall k e ?_ hg, fun hall k e he hg => ?_⟩
      · rw [FMap.lookup_erase_eq, if_neg fun heq => hans ((hk k).mpr heq)]
        exact he
      · rw [FMap.lookup_erase_eq] at he
        split_ifs at he with hkey
        exact hall k e he hg fun hans => hkey ((hk k).mp hans)
    | announced hno hstore hlacks hnew heq =>
      rw [heq, hstore]
      refine ⟨fun hall k e he hg _ => hall k e ?_ hg, fun hall k e he hg => ?_⟩
      · rw [FMap.lookup_insert_eq, if_neg fun hkey => ?_]
        · exact he
        · rw [hkey, hnew] at he
          cases he
      · rw [FMap.lookup_insert_eq] at he
        split_ifs at he with hkey
        · rw [hkey]
          exact hlacks
        · exact hall k e he hg (hno k)

/-! ## At most one graft -/

/-- The frames `processGrafts` sends in an operation. -/
def NodeOp.grafts (env : Env) (n : Node) (op : NodeOp) : List (NodeID × Frame) :=
  match op.tickAt with
  | some now => n.sentSince (n.processGrafts env now)
  | none => []

/-- The grafts for an announcement along a run. -/
def graftsFor (env : Env) (k : IHaveKey) : Node → List NodeOp → ℕ
  | _, [] => 0
  | n, op :: ops =>
    (op.grafts env n).countP (fun m => decide (m.2 = k.graft)) + graftsFor env k (op.exec env n) ops

/-- The announcement is tracked. -/
def Tracked (k : IHaveKey) (n : Node) : Prop := ∃ e, n.missingIHaves.lookup k = some e

/-- The grafts an entry has left. -/
def IHaveEntry.left (e : IHaveEntry) : ℕ := if e.grafted then 0 else 1

/-- A tick grafts an announcement once if it is due, and not otherwise. -/
theorem countP_grafts_le (env : Env) (n : Node) (now : Time) {k : IHaveKey} {e : IHaveEntry}
    (he : n.missingIHaves.lookup k = some e) :
    (n.sentSince (n.processGrafts env now)).countP (fun m => decide (m.2 = k.graft)) ≤
      if Node.ihaveDue env now e then 1 else 0 := by
  split_ifs with hdue
  · have hkeys : n.missingIHaves.entries.countP (fun e' => decide (e'.1 = k)) ≤ 1 := by
      have hnodup := List.nodup_iff_count_le_one.mp n.missingIHaves.keys_nodup k
      unfold AList.keys List.keys at hnodup
      rw [List.count_eq_countP, List.countP_map] at hnodup
      exact hnodup
    rw [sentSince_processGrafts, List.countP_filterMap]
    refine (List.countP_mono_left fun e' _ hp => ?_).trans hkeys
    cases hm : graftOf env now e' with
    | none =>
      rw [hm] at hp
      cases hp
    | some m =>
      rw [hm] at hp
      obtain ⟨dst, f⟩ := m
      have hf : f = k.graft := by simpa using hp
      exact decide_eq_true (graftOf_eq_some (hf ▸ hm)).1
  · refine le_of_eq (List.countP_eq_zero.mpr fun m hm hf => hdue ?_)
    obtain ⟨dst, f⟩ := m
    have hf' : f = k.graft := by simpa using hf
    obtain ⟨e', he', hdue', -⟩ := mem_grafts_iff.mp ⟨dst, hf' ▸ hm⟩
    rw [he] at he'
    cases he'
    exact hdue'

/-- An operation pays for a graft with the mark on the entry. -/
theorem grafts_add_left_le (env : Env) (n : Node) (op : NodeOp) {k : IHaveKey} {e e' : IHaveEntry}
    (he : n.missingIHaves.lookup k = some e)
    (he' : (op.exec env n).missingIHaves.lookup k = some e') :
    (op.grafts env n).countP (fun m => decide (m.2 = k.graft)) + e'.left ≤ e.left := by
  unfold NodeOp.grafts
  cases hop : op.tickAt with
  | some now =>
    have hcount := countP_grafts_le env n now he
    rw [pending_tick env n hop, lookup_ageIHaves, he] at he'
    dsimp only [Option.bind_some] at he'
    dsimp only
    split_ifs at he' hcount with hexp hdue
    · cases he'
      have hfresh : e.left = 1 := by
        unfold Node.ihaveDue at hdue
        unfold IHaveEntry.left
        simp_all
      rw [hfresh]
      exact hcount
    · cases he'
      omega
  | none =>
    have hkeep : e' = e := by
      cases pending_exec env n hop with
      | same _ heq =>
        rw [heq, he] at he'
        exact (Option.some.inj he').symm
      | answered _ heq =>
        rw [heq, FMap.lookup_erase_eq] at he'
        split_ifs at he'
        rw [he] at he'
        exact (Option.some.inj he').symm
      | announced _ _ _ hnew heq =>
        rw [heq, FMap.lookup_insert_eq] at he'
        split_ifs at he' with hkey
        · rw [hkey, hnew] at he
          cases he
        · rw [he] at he'
          exact (Option.some.inj he').symm
    rw [hkeep]
    simp

theorem graftsFor_le_left (env : Env) (k : IHaveKey) {n : Node} {ops : List NodeOp}
    (h : Runs.StatesMeet (NodeOp.exec env) (Tracked k) n ops) {e : IHaveEntry}
    (he : n.missingIHaves.lookup k = some e) : graftsFor env k n ops ≤ e.left := by
  induction ops generalizing n e with
  | nil => exact Nat.zero_le _
  | cons op ops ih =>
    obtain ⟨e', he'⟩ := h.2.start
    have hrest := ih h.2 he'
    have hstep := grafts_add_left_le env n op he he'
    unfold graftsFor
    omega

/-- **Grafts for missing records.** Along every run, whenever `processGrafts` sends a graft the
store lacks the record, exactly when no operation outran a pending announcement; and as long as an
announcement is tracked it is grafted at most once. -/
theorem grafts_missing_iff (env : Env) (rd : Reading) (configFn : NodeID → PerPeerConfig)
    (ops : List NodeOp) :
    (Runs.StatesMeet (NodeOp.exec env) (GraftsMissing env) (newNode rd configFn) ops ↔
      Runs.StepsMeet (NodeOp.exec env) (fun n op => ¬op.Outruns env n) (newNode rd configFn) ops) ∧
    ∀ front back k, ops = front ++ back →
      Runs.StatesMeet (NodeOp.exec env) (Tracked k) (runNode env (newNode rd configFn) front) back →
        graftsFor env k (runNode env (newNode rd configFn) front) back ≤ 1 := by
  constructor
  · refine Runs.statesMeet_iff_stepsMeet (graftsMissing_exec_iff env) ?_ ops
    refine graftsMissing_iff.mpr fun k e he _ => ?_
    cases he
  · intro front back k _ htracked
    obtain ⟨e, he⟩ := htracked.start
    refine (graftsFor_le_left env k htracked he).trans ?_
    unfold IHaveEntry.left
    split_ifs
    · exact Nat.zero_le _
    · exact le_refl _

/-- A record that is announced and then delivered in a range. -/
def rangedRecord : Record :=
  signRecord .inClear { topic := [116], nodeID := [9], key := [107], hlc := 65536000, body := [1] }
    (List.replicate 64 9)

/-- Peer 1 announces it and peer 2 delivers it. -/
def rangedOps : List NodeOp :=
  [.receive ⟨1000000000, 1000000000⟩ [1] (frameIHave [116] [9] [107] 65536000 []),
    .receive ⟨1000000000, 1000000000⟩ [2] (.merkleRange [116] [rangedRecord] false)]

/-- The node holds the record, and a tick after the graft delay asks for it. -/
theorem held_record_grafted :
    (runNode plainEnv (newNode ⟨0, 0⟩ fun _ => {}) rangedOps).store.getRawKeyed [116] [9] [107] =
        some rangedRecord ∧
      rangedRecord.hlc = 65536000 ∧
      (runNode plainEnv (newNode ⟨0, 0⟩ fun _ => {}) rangedOps).sentSince
        ((runNode plainEnv (newNode ⟨0, 0⟩ fun _ => {}) rangedOps).processGrafts plainEnv
          1500000000) = [([1], frameGraft [116] [9] [107] 65536000)] := by
  decide +kernel

end Swarm
