import GraphR.Store.Writer

/-! # One handle and its files

    A store run through a single handle: what is on disk (a base with the last
    sequence number folded into it, and the log above it) and what the handle
    serves (a base and the overlay). A transaction is staged on an empty record,
    sealed, appended and published; compaction writes a new base and an empty
    log; reopening throws the served state away and rebuilds it from the files.

    Files are held decoded: the log as numbered ops, the base as its models. -/

namespace GraphR

open Wal ByteLib

/-- The two files. -/
structure Disk where
  base : Base
  /-- Last sequence number folded into the base. -/
  applied : Nat
  log : List (Nat × Op)

/-- A handle over its files. -/
structure Handle where
  disk : Disk
  served : Base
  overlay : List (Nat × Op)
  nextSeq : Nat

/-! ## Transactions -/

/-- A staging call that reads no state. -/
inductive Write where
  | upsert (doc : DocRecord)
  | remove (key : UrlKey)
  | setSegments (key : UrlKey) (segs : List SegmentRecord)
  | setEdges (key : UrlKey) (edges : List (UrlKey × EdgeType × UInt16))
  | setEdgesWithFlags (key : UrlKey) (edges : List (UrlKey × EdgeType × UInt16 × UInt8))
  | setAttrs (key : UrlKey) (attrs : List (UInt8 × String))

def Write.stage (w : Write) (b : RecordBuf) : Except Error RecordBuf :=
  match w with
  | .upsert doc => Writer.upsertNode b doc
  | .remove key => .ok (Writer.remove b key)
  | .setSegments key segs => Writer.setSegments b key segs
  | .setEdges key edges => .ok (Writer.setEdges b key edges)
  | .setEdgesWithFlags key edges => .ok (Writer.setEdgesWithFlags b key edges)
  | .setAttrs key attrs => Writer.setAttrs b key attrs

/-- One transaction. -/
inductive Txn where
  | touch (key : UrlKey) (t : Writer.Touch)
  | pin (key : UrlKey) (pinned : Bool)
  | writes (ws : List Write)

/-- Stage a transaction on an empty record; `none` when a call refuses it (or
    a touch or pin finds no node). -/
def Txn.stage (s : Snapshot) : Txn → Option RecordBuf
  | .touch key t =>
    match Writer.touch RecordBuf.new s key t with
    | some (.ok (true, b)) => some b
    | _ => none
  | .pin key pinned =>
    match Writer.setPinned RecordBuf.new s key pinned with
    | some (true, b) => some b
    | _ => none
  | .writes ws =>
    match ws.foldlM (fun b w => w.stage b) RecordBuf.new with
    | .ok b => some b
    | .error _ => none

/-! ## Steps -/

/-- What happens to a store. -/
inductive Cmd where
  | txn (t : Txn)
  | compact
  | reopen

namespace Handle

section steps
variable (xxh3 : Bytes → UInt64) (rank : SortedMap UrlKey NodeModel → List UInt16)
  (ttl : TtlConfig)

/-- The handle's current read view. -/
def snapshot (h : Handle) : Snapshot := h.served.snapshot (h.overlay.map Prod.snd) ttl

/-- A fresh store. -/
def create : Handle :=
  { disk := ⟨⟨SortedMap.empty, []⟩, 0, []⟩, served := ⟨SortedMap.empty, []⟩, overlay := []
    nextSeq := 1 }

/-- Number ops from `first` on. -/
def numbered (first : Nat) (ops : List Op) : List (Nat × Op) :=
  (ops.zipIdx first).map fun p => (p.2, p.1)

/-- Seal the staged ops, append the record, publish it. -/
def commit (h : Handle) (staged : RecordBuf) : Option Handle :=
  if staged.isEmpty then some h
  else if 2 ^ 64 ≤ h.nextSeq then none
  else
    match staged.seal xxh3 (UInt64.ofNat h.nextSeq) with
    | .error _ => none
    | .ok _ => do
      let ops ← staged.opViews.mapM OpView.read
      let entries := numbered h.nextSeq ops
      some { h with
        disk := { h.disk with log := h.disk.log ++ entries }
        overlay := h.overlay ++ entries
        nextSeq := h.nextSeq + ops.length }

/-- Fold base and overlay into a new base, with an empty log. -/
def compact (h : Handle) : Option Handle := do
  let nodes ← (h.snapshot ttl).compactNodes xxh3
  let base : Base := ⟨nodes, rank nodes⟩
  some { disk := ⟨base, h.nextSeq - 1, []⟩, served := base, overlay := []
         nextSeq := h.nextSeq - 1 + 1 }

/-- Rebuild the served state from the files. -/
def reopen (h : Handle) : Handle :=
  { h with
    served := h.disk.base
    overlay := h.disk.log.filter fun e => h.disk.applied < e.1
    nextSeq := max (h.disk.log.getLast?.elim 0 Prod.fst) h.disk.applied + 1 }

def exec (h : Handle) : Cmd → Option Handle
  | .txn t => do
    let staged ← t.stage (h.snapshot ttl)
    h.commit xxh3 staged
  | .compact => h.compact xxh3 rank ttl
  | .reopen => some h.reopen

/-- A whole run. -/
def run (h : Handle) (cmds : List Cmd) : Option Handle :=
  cmds.foldlM (fun h c => h.exec xxh3 rank ttl c) h

end steps

/-! ## The files and the served state agree -/

/-- What one handle keeps between its files and what it serves. -/
structure Synced (h : Handle) : Prop where
  served : h.served = h.disk.base
  overlay : h.overlay = h.disk.log
  above : ∀ e ∈ h.disk.log, h.disk.applied < e.1
  next : h.nextSeq = max (h.disk.log.getLast?.elim 0 Prod.fst) h.disk.applied + 1

namespace Synced

theorem create : Synced Handle.create :=
  ⟨rfl, rfl, fun e he => absurd he (by simp [Handle.create]), rfl⟩

/-- Reopening changes nothing. -/
theorem reopen {h : Handle} (hs : Synced h) : h.reopen = h := by
  have hfilter : (h.disk.log.filter fun e => h.disk.applied < e.1) = h.disk.log :=
    List.filter_eq_self.mpr fun e he => by simpa using hs.above e he
  unfold Handle.reopen
  rw [hfilter, ← hs.next, ← hs.served, ← hs.overlay]

theorem commit {h h' : Handle} {xxh3 : Bytes → UInt64} {staged : RecordBuf} (hs : Synced h)
    (hc : h.commit xxh3 staged = some h') : Synced h' := by
  unfold Handle.commit at hc
  split_ifs at hc with hempty hnext
  · cases hc
    exact hs
  · cases hseal : staged.seal xxh3 (UInt64.ofNat h.nextSeq) with
    | error e => simp [hseal] at hc
    | ok b =>
      simp only [hseal] at hc
      cases hops : staged.opViews.mapM OpView.read with
      | none => simp [hops] at hc
      | some ops =>
        simp only [hops, Option.bind_eq_bind, Option.bind_some, Option.some.injEq] at hc
        subst hc
        have hnum := hs.next
        refine ⟨hs.served, by simp [hs.overlay], ?_, ?_⟩
        · intro e he
          rcases List.mem_append.mp he with he | he
          · exact hs.above e he
          · obtain ⟨p, hp, rfl⟩ := List.mem_map.mp he
            have hle := List.le_snd_of_mem_zipIdx hp
            simp only
            omega
        · -- the last number is the last one taken
          rcases List.eq_nil_or_concat ops with rfl | ⟨init, last, rfl⟩
          · simpa [numbered] using hnum
          · simp [numbered, List.zipIdx_append, List.zipIdx_cons]
            omega

theorem compact {h h' : Handle} {xxh3 : Bytes → UInt64}
    {rank : SortedMap UrlKey NodeModel → List UInt16} {ttl : TtlConfig}
    (hc : h.compact xxh3 rank ttl = some h') : Synced h' := by
  unfold Handle.compact at hc
  cases hn : (h.snapshot ttl).compactNodes xxh3 with
  | none => simp [hn] at hc
  | some nodes =>
    simp only [hn, Option.bind_eq_bind, Option.bind_some, Option.some.injEq] at hc
    subst hc
    exact ⟨rfl, rfl, fun e he => absurd he (by simp), by simp⟩

end Synced

end Handle

end GraphR
