import GraphR.Format.Wal.RoundTrip
import GraphR.Store.Compact

/-! # Writers: staging

    Each staging call validates and normalises its input, then pushes one op
    onto the record being built. Freshness math runs here, at touch time, and the
    computed state travels inside the op. A call that refuses leaves the record
    as it was. -/

namespace GraphR

open Wal ByteLib

/-! ## Constants -/

/-- Most value bytes one node's attribute set may hold in total. -/
def maxAttrBytes : Nat := maxOp - (opHeaderLen + 8) - maxAttrs * 8

def checkLabel (name : String) (s : String) : Except Error Unit :=
  if maxLabel < strLen s then .error (.format (name ++ " label exceeds 2048 bytes")) else .ok ()

/-- `check_label` on an optional string. -/
def checkOptLabel (name : String) (s : Option String) : Except Error Unit :=
  s.elim (.ok ()) (checkLabel name)

namespace Writer

variable (b : RecordBuf)

/-! ## Documents -/

/-- The node flags of an upsert. -/
def docFlags (doc : DocRecord) : UInt16 := if doc.pinned then nflags.pinned else 0

/-- Stage a node create/replace. -/
def upsertNode (doc : DocRecord) : Except Error RecordBuf := do
  checkLabel "url" doc.url
  if strLen doc.url = 0 then .error (.format "url must not be empty")
  else do
    checkOptLabel "title" doc.title
    checkOptLabel "snippet" doc.snippet
    checkOptLabel "etag" doc.etag
    b.pushUpsert doc (docFlags doc)

/-- Stage a whole-set segment replacement. -/
def setSegments (key : UrlKey) (segs : List SegmentRecord) : Except Error RecordBuf :=
  b.pushSegments key segs

/-- Stage a hard delete. -/
def remove (key : UrlKey) : RecordBuf := b.pushRemove key

/-! ## Edges -/

/-- An edge as a caller gives it: destination, type, weight, flags. -/
structure EdgeSpec where
  dst : UrlKey
  etype : EdgeType
  weight : UInt16
  flags : UInt8
  deriving DecidableEq

/-- The edge staged for a spec. -/
def EdgeSpec.toEdge (e : EdgeSpec) : Edge :=
  ⟨e.dst, e.etype.asTag, if e.etype = .related then e.flags ||| eflags.inferred else e.flags,
    e.weight⟩

/-- The pass over the specs: self edges and repeated destinations skipped, the
    first 4096 kept. -/
def ownEdges (key : UrlKey) : List EdgeSpec → List UrlKey → List Edge → List Edge
  | [], _, owned => owned
  | e :: rest, seen, owned =>
    if e.dst = key ∨ e.dst ∈ seen then ownEdges key rest seen owned
    else if (owned ++ [e.toEdge]).length = maxEdges then owned ++ [e.toEdge]
    else ownEdges key rest (e.dst :: seen) (owned ++ [e.toEdge])

/-- The normalised edge set of `key`. -/
def edgeSet (key : UrlKey) (edges : List EdgeSpec) : List Edge :=
  (ownEdges key edges [] []).insertionSort fun a b => a.dst ≤ b.dst

def stageEdges (key : UrlKey) (edges : List EdgeSpec) : RecordBuf :=
  match b.pushEdges key (edgeSet key edges) with
  | .ok b' => b'
  | .error _ => b

/-- Stage a whole-set outbound-edge replacement. -/
def setEdges (key : UrlKey) (edges : List (UrlKey × EdgeType × UInt16)) : RecordBuf :=
  stageEdges b key (edges.map fun (d, t, w) => ⟨d, t, w, 0⟩)

/-- `setEdges` with per-edge flags; only `EXACT` is kept. -/
def setEdgesWithFlags (key : UrlKey) (edges : List (UrlKey × EdgeType × UInt16 × UInt8)) :
    RecordBuf :=
  stageEdges b key (edges.map fun (d, t, w, f) => ⟨d, t, w, f &&& eflags.exact⟩)

/-! ## Attributes -/

/-- The pass of `set_attrs` over the reversed attributes: a later key wins. -/
def ownAttrs : List (UInt8 × String) → List (UInt8 × String) →
    Except Error (List (UInt8 × String))
  | [], owned => .ok owned
  | a :: rest, owned =>
    if maxAttrLen < strLen a.2 then .error (.format "attribute too long")
    else if owned.any fun o => o.1 = a.1 then ownAttrs rest owned
    else ownAttrs rest (owned ++ [a])

/-- Attributes in key order. -/
def sortAttrs (attrs : List (UInt8 × String)) : List (UInt8 × String) :=
  attrs.insertionSort fun a b => a.1 ≤ b.1

/-- Stage a whole-set replacement of `key`'s attributes. -/
def setAttrs (key : UrlKey) (attrs : List (UInt8 × String)) : Except Error RecordBuf :=
  if maxAttrs < attrs.length then .error (.format "too many attributes")
  else do
    let owned ← ownAttrs attrs.reverse []
    if maxAttrBytes < (owned.map fun a => strLen a.2).sum then
      .error (.format "attributes exceed 1048246 bytes in total")
    else b.pushAttrParts key ((sortAttrs owned).map fun (k, v) => (k, [v, "", ""]))

/-! ## Touches and pins -/

/-- A revalidation observation. -/
structure Touch where
  checkedAtMs : UInt64
  outcome : Outcome
  contentHash : Option UInt64
  etag : Option String
  deriving DecidableEq

/-- `a.saturating_add(1)`. -/
def satSucc (a : UInt16) : UInt16 := UInt16.ofNat (min (a.toNat + 1) 65535)

/-- The hash and etag of the last upsert of `key` among staged ops. -/
def stagedCore (key : UrlKey) (ops : List Op) : Option (UInt64 × Option String) :=
  ops.foldl (fun acc op =>
    match op with
    | .upsert u => if u.key = key then some (u.contentHash, u.etag) else acc
    | _ => acc) none

/-- The op a touch stages: the node's full effective state. -/
def touchRecord (node : NodeRef) (staged : Option (UInt64 × Option String)) (t : Touch)
    (intervalS : UInt32) : TouchRecord :=
  let base := staged.getD (node.contentHash, node.etag)
  { checkedAtMs := t.checkedAtMs
    outcome := t.outcome.asTag
    contentHash := some (t.contentHash.getD base.1)
    etag := t.etag.or base.2
    intervalS
    checks := satSucc node.checks
    changes := if t.outcome = .changed then satSucc node.changes else node.changes
    lastChangeMs := if t.outcome = .changed then t.checkedAtMs else node.lastChangeMs
    tombstone := t.outcome = .gone }

/-- Record a revalidation outcome; `false`, staging nothing, when `key` is no
    committed node. The outer option is a panic (a fault of a read, or a clamp
    whose bounds are crossed). -/
def touch (s : Snapshot) (key : UrlKey) (t : Touch) : Option (Except Error (Bool × RecordBuf)) :=
  match checkOptLabel "etag" t.etag with
  | .error e => some (.error e)
  | .ok () => do
    let ops ← b.opViews.mapM OpView.read
    match ← s.node key with
    | none => some (.ok (false, b))
    | some node => do
      let interval ← s.ttl.nextInterval (max node.intervalS 1) t.outcome
      some ((b.pushTouch key (touchRecord node (stagedCore key ops) t interval)).map (true, ·))

/-- Stage a pin or unpin; `false`, staging nothing, when `key` is neither
    committed nor upserted earlier in the batch. -/
def setPinned (s : Snapshot) (key : UrlKey) (pinned : Bool) : Option (Bool × RecordBuf) := do
  let ops ← b.opViews.mapM OpView.read
  if (stagedCore key ops).isSome then some (true, b.pushPin key pinned)
  else
    match ← s.node key with
    | none => some (false, b)
    | some _ => some (true, b.pushPin key pinned)

end Writer

end GraphR
