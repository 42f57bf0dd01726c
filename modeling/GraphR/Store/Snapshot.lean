import GraphR.Store.Overlay
import GraphR.Store.Ttl

/-! # Read views

    A `Snapshot` is one base generation and the overlay ops committed before it
    was taken; every read merges the two. What it reads of the base goes through
    a `BaseReader`, whose reads may fault (`none`): the reader over the bytes of a
    base file faults on an index out of bounds or on a label that is not UTF-8,
    the reader over a decoded base never does. The merge itself is written once,
    here, for both. -/

namespace GraphR

open Wal ByteLib

/-! ## What a snapshot reads of a base -/

/-- A node record with its labels resolved. -/
structure BaseRec where
  key : UrlKey
  url : Option String
  title : Option String
  snippet : Option String
  etag : Option String
  contentHash : UInt64
  fetchedAtMs : UInt64
  lastChangeMs : UInt64
  intervalS : UInt32
  checks : UInt16
  changes : UInt16
  flags : UInt16
  deriving DecidableEq

/-- One record of an edge run, forward or inbound: the node id at its other
    end, type tag, flags, weight. -/
structure BaseEdge where
  node : Nat
  etype : UInt8
  eflags : UInt8
  weight : UInt16
  deriving DecidableEq

/-- A sub-document segment reference. -/
structure SegRef where
  key : UInt64
  label : String
  byteRange : Option (UInt32 × UInt32)
  depth : UInt8
  importance : UInt16
  flags : UInt8
  deriving DecidableEq

/-- The reads a snapshot makes of its base, by dense node id. `none` is a
    fault. -/
structure BaseReader where
  nodeCount : Nat
  findNode : UrlKey → Option (Option Nat)
  nodeRec : Nat → Option BaseRec
  rankPermille : Nat → Option UInt16
  edges : Nat → Option (List BaseEdge)
  inEdges : Nat → Option (List BaseEdge)
  segs : Nat → Option (List SegRef)
  attrs : Nat → Option (List (UInt8 × String))

/-! ## Nodes -/

/-- A document node resolved through a snapshot. -/
structure NodeRef where
  key : UrlKey
  id : Option Nat
  url : String
  title : Option String
  snippet : Option String
  etag : Option String
  contentHash : UInt64
  fetchedAtMs : UInt64
  lastChangeMs : UInt64
  intervalS : UInt32
  checks : UInt16
  changes : UInt16
  flags : UInt16
  rankPermille : UInt16
  deriving DecidableEq

namespace NodeRef

def pinned (n : NodeRef) : Bool := hasFlag n.flags nflags.pinned
def isStub (n : NodeRef) : Bool := hasFlag n.flags nflags.stub
def isTombstone (n : NodeRef) : Bool := hasFlag n.flags nflags.tombstone

end NodeRef

/-- `if pinned { flags | PINNED } else { flags & !PINNED }`. -/
def withPin (flags : UInt16) (pinned : Bool) : UInt16 :=
  if pinned then flags ||| nflags.pinned else flags &&& ~~~nflags.pinned

@[simp] theorem withPin_pinned (f : UInt16) (pinned : Bool) :
    hasFlag (withPin f pinned) nflags.pinned = pinned := by
  cases pinned with
  | false => exact hasFlag_and_not_self f
  | true => exact hasFlag_or_self f (by decide)

/-- Pinning leaves the other flags alone. -/
theorem withPin_other (f : UInt16) (pinned : Bool) {bit : UInt16}
    (h : bit = nflags.stub ∨ bit = nflags.tombstone) :
    hasFlag (withPin f pinned) bit = hasFlag f bit := by
  cases pinned with
  | false =>
    refine hasFlag_and_not_other f ?_
    rcases h with rfl | rfl <;> decide
  | true =>
    refine hasFlag_or_other f ?_
    rcases h with rfl | rfl <;> decide

/-- The fields a touch overrides. -/
structure Freshness where
  fetchedAtMs : UInt64
  intervalS : UInt32
  checks : UInt16
  changes : UInt16
  lastChangeMs : UInt64
  contentHash : UInt64
  etag : Option String
  flags : UInt16
  deriving DecidableEq

/-- A touch over the state before it: the stamp and the counters are its own,
    the hash and the etag too when it carries them, and a tombstone is only ever
    added. -/
def Freshness.touched (f : Freshness) (t : TouchRecord) : Freshness :=
  { fetchedAtMs := t.checkedAtMs
    intervalS := t.intervalS
    checks := t.checks
    changes := t.changes
    lastChangeMs := t.lastChangeMs
    contentHash := t.contentHash.getD f.contentHash
    etag := t.etag.or f.etag
    flags := if t.tombstone then f.flags ||| nflags.tombstone else f.flags }

/-- The flags of an overlay core: an explicit overlay pin is authoritative,
    otherwise a base pin is sticky. `base` is the base record unless severed. -/
def coreFlags (p : OverlayNode) (core : Upsert) (base : Option BaseRec) : UInt16 :=
  match p.pinned with
  | some pinned => withPin core.flags pinned
  | none =>
    if base.any fun r => hasFlag r.flags nflags.pinned then core.flags ||| nflags.pinned
    else core.flags

/-- The flags of an overlay core: its pin is the explicit one or the sticky one,
    its other flags are its own. -/
theorem coreFlags_spec (p : OverlayNode) (c : Upsert) (r : Option BaseRec) :
    hasFlag (coreFlags p c r) nflags.pinned = p.pinned.getD (hasFlag c.flags nflags.pinned ||
      r.any fun r => hasFlag r.flags nflags.pinned) ∧
    hasFlag (coreFlags p c r) nflags.stub = hasFlag c.flags nflags.stub ∧
    hasFlag (coreFlags p c r) nflags.tombstone = hasFlag c.flags nflags.tombstone := by
  unfold coreFlags
  cases p.pinned with
  | some pinned =>
    exact ⟨withPin_pinned _ _, withPin_other _ _ (.inl rfl), withPin_other _ _ (.inr rfl)⟩
  | none =>
    simp only [Option.getD_none]
    by_cases hr : (r.any fun r => hasFlag r.flags nflags.pinned) = true
    · rw [if_pos hr, hr, Bool.or_true]
      exact ⟨hasFlag_or_self _ (by decide), hasFlag_or_other _ (by decide),
        hasFlag_or_other _ (by decide)⟩
    · rw [if_neg hr]
      simp [hr]

/-- Counters with no touch since the upsert: from overlay history first, else
    from the base record. -/
def coreCounters (p : OverlayNode) (base : Option BaseRec) : UInt16 × UInt16 × UInt64 :=
  match p.carried with
  | some c => c
  | none => base.elim (0, 0, 0) fun r => (r.checks, r.changes, r.lastChangeMs)

/-- The interval with no touch since the upsert: the learned one when the
    content is unchanged. -/
def coreInterval (ttl : TtlConfig) (core : Upsert) (base : Option BaseRec) : UInt32 :=
  base.elim ttl.baseS fun r =>
    if r.contentHash = core.contentHash then max r.intervalS 1 else ttl.baseS

/-- The state of a node with an overlay core. -/
def coreFreshness (ttl : TtlConfig) (p : OverlayNode) (core : Upsert) (base : Option BaseRec) :
    Freshness :=
  let base := if p.severed then none else base
  let flags := coreFlags p core base
  match p.touch with
  | some t =>
    Freshness.touched
      { fetchedAtMs := core.fetchedAtMs, intervalS := ttl.baseS, checks := 0, changes := 0,
        lastChangeMs := 0, contentHash := core.contentHash, etag := core.etag, flags } t
  | none =>
    let counters := coreCounters p base
    { fetchedAtMs := core.fetchedAtMs, intervalS := coreInterval ttl core base,
      checks := counters.1, changes := counters.2.1, lastChangeMs := counters.2.2,
      contentHash := core.contentHash, etag := core.etag, flags }

/-- The state of a node whose newest content is the base record. -/
def baseFreshness (r : BaseRec) (patch : Option OverlayNode) : Freshness :=
  let f : Freshness :=
    { fetchedAtMs := r.fetchedAtMs, intervalS := r.intervalS, checks := r.checks,
      changes := r.changes, lastChangeMs := r.lastChangeMs, contentHash := r.contentHash,
      etag := r.etag, flags := r.flags }
  match patch with
  | none => f
  | some p =>
    let f := { f with flags := p.pinned.elim f.flags (withPin f.flags) }
    match p.touch with
    | some t => f.touched t
    | none => f

/-- A node reference from its parts. -/
def NodeRef.make (key : UrlKey) (id : Option Nat) (url : String) (title snippet : Option String)
    (f : Freshness) (rank : UInt16) : NodeRef :=
  { key, id, url, title, snippet, etag := f.etag, contentHash := f.contentHash,
    fetchedAtMs := f.fetchedAtMs, lastChangeMs := f.lastChangeMs, intervalS := f.intervalS,
    checks := f.checks, changes := f.changes, flags := f.flags, rankPermille := rank }

/-! ## The snapshot -/

/-- A pinned, immutable read view. -/
structure Snapshot where
  base : BaseReader
  /-- The overlay ops below the frontier, in order. -/
  ops : List Op
  ttl : TtlConfig

namespace Snapshot

variable (s : Snapshot)

def overlay : OverlayView := OverlayView.build s.ops

/-- Key and URL of a base node. -/
def nodeIdentity (id : Nat) : Option (UrlKey × Option String) := do
  let r ← s.base.nodeRec id
  some (r.key, r.url)

def baseNodeRef (id : Nat) (patch : Option OverlayNode) : Option NodeRef := do
  let r ← s.base.nodeRec id
  let rank ← s.base.rankPermille id
  some (.make r.key (some id) (r.url.getD "") r.title r.snippet (baseFreshness r patch) rank)

/-- The node of an overlay core, which wins wholesale. -/
def coreNodeRef (key : UrlKey) (baseId : Option Nat) (p : OverlayNode) (core : Upsert) :
    Option NodeRef := do
  let r ← baseId.mapM s.base.nodeRec
  let rank ← baseId.mapM s.base.rankPermille
  some (.make key baseId core.url core.title core.snippet (coreFreshness s.ttl p core r)
    (rank.getD 0))

/-- Look up a node by key, merging base and overlay state. -/
def node (key : UrlKey) : Option (Option NodeRef) :=
  let patch := s.overlay.get key
  if patch.any (·.removed) then some none
  else do
    let baseId ← s.base.findNode key
    match baseId, patch.bind fun p => p.core.map fun c => (p, c) with
    | _, some (p, core) => (s.coreNodeRef key baseId p core).map some
    | some id, none => (s.baseNodeRef id patch).map some
    | none, none => some none

/-- The live node of a base record, if it is one. -/
def liveBase (id : Nat) : Option (Option NodeRef) := do
  let r ← s.base.nodeRec id
  let patch := s.overlay.get r.key
  if patch.any (·.removed) then some none
  else do
    let n ← if (patch.bind (·.core)).isSome then s.node r.key else (s.baseNodeRef id patch).map some
    some (n.filter fun n => !(n.isStub || n.isTombstone))

/-- The live node of an overlay key with no base record, if it is one. -/
def liveFresh (key : UrlKey) (p : OverlayNode) : Option (Option NodeRef) := do
  let baseId ← s.base.findNode key
  if p.removed || p.core.isNone || baseId.isSome then some none
  else do
    let n ← s.node key
    some (n.filter fun n => !n.isTombstone)

/-- Every live node: base, then overlay-fresh, both in key order. -/
def forEachLive : Option (List NodeRef) := do
  let fromBase ← (List.range s.base.nodeCount).mapM s.liveBase
  let fresh ← s.overlay.entries.mapM fun e => s.liveFresh e.1 e.2
  some (fromBase.filterMap id ++ fresh.filterMap id)

/-- Live document count. -/
def len : Option Nat := s.forEachLive.map List.length

end Snapshot

/-! ## Edges -/

/-- One outbound edge as seen from a snapshot. -/
structure EdgeRef where
  dst : Option Nat
  dstKey : UrlKey
  dstUrl : Option String
  etype : EdgeType
  flags : UInt8
  weight : UInt16
  deriving DecidableEq

/-- One inbound edge: source, type, flags, weight. -/
structure InEdge where
  src : UrlKey
  etype : EdgeType
  flags : UInt8
  weight : UInt16
  deriving DecidableEq

namespace Snapshot

variable (s : Snapshot)

/-- A base edge, its destination resolved. -/
def baseEdgeRef (e : BaseEdge) : Option EdgeRef := do
  let (key, url) ← s.nodeIdentity e.node
  some ⟨some e.node, key, url, EdgeType.fromTag e.etype, e.eflags, e.weight⟩

/-- An overlay edge, its destination resolved against the base. -/
def overlayEdgeRef (e : Edge) : Option EdgeRef := do
  let dst ← s.base.findNode e.dst
  let identity ← dst.mapM s.nodeIdentity
  some ⟨dst, e.dst, identity.bind (·.2), EdgeType.fromTag e.etype, e.eflags, e.weight⟩

/-- Edges of the base run of `key`. -/
def baseNeighbors (key : UrlKey) : Option (List EdgeRef) := do
  match ← s.base.findNode key with
  | none => some []
  | some id => do
    let run ← s.base.edges id
    run.mapM s.baseEdgeRef

/-- Outbound edges of `key`: an overlay whole-set replacement wins. -/
def neighbors (key : UrlKey) : Option (List EdgeRef) :=
  match s.overlay.get key with
  | none => s.baseNeighbors key
  | some p =>
    if p.removed then some []
    else
      match p.edges with
      | some es => es.mapM s.overlayEdgeRef
      | none => if p.severed then some [] else s.baseNeighbors key

/-- An inbound record of the base, unless the overlay replaced or removed its
    source's edges. -/
def baseInEdge (e : BaseEdge) : Option (Option InEdge) := do
  let (src, _) ← s.nodeIdentity e.node
  if (s.overlay.get src).any fun p => p.edges.isSome || p.removed || p.severed then some none
  else some (some ⟨src, EdgeType.fromTag e.etype, e.eflags, e.weight⟩)

/-- The overlay edges that point at `key`, by source. -/
def overlayInEdges (key : UrlKey) : List InEdge :=
  s.overlay.entries.flatMap fun (src, p) =>
    if p.removed then []
    else ((p.edges.getD []).filter fun e => e.dst = key).map fun e =>
      ⟨src, EdgeType.fromTag e.etype, e.eflags, e.weight⟩

/-- Inbound edges of `key`. -/
def inEdges (key : UrlKey) : Option (List InEdge) := do
  let fromBase ← match ← s.base.findNode key with
    | none => some []
    | some id => do
      let run ← s.base.inEdges id
      run.mapM s.baseInEdge
  some (fromBase.filterMap id ++ s.overlayInEdges key)

end Snapshot

/-! ## Side sets -/

/-- `split_once('\0')`. -/
def splitNul (s : String) : Option (String × String) :=
  match s.toList.span (· ≠ Char.ofNat 0) with
  | (_, []) => none
  | (name, _ :: value) => some (String.ofList name, String.ofList value)

namespace Snapshot

variable (s : Snapshot)

/-- Attributes of the base run of `key`. -/
def baseAttrs (key : UrlKey) : Option (List (UInt8 × String)) := do
  match ← s.base.findNode key with
  | none => some []
  | some id => s.base.attrs id

/-- Every attribute of `key`: an overlay whole-set replacement wins. -/
def attrs (key : UrlKey) : Option (List (UInt8 × String)) :=
  match s.overlay.get key with
  | none => s.baseAttrs key
  | some p =>
    if p.removed || (p.attrs.isNone && p.severed) then some []
    else
      match p.attrs with
      | some as => some as
      | none => s.baseAttrs key

/-- Every named attribute of `key`. -/
def namedAttrs (key : UrlKey) : Option (List (String × String)) := do
  let as ← s.attrs key
  some ((as.filterMap fun a => splitNul a.2).filter fun p => p.1 ≠ "")

/-- Segments of the base record of `key`. -/
def baseSegments (key : UrlKey) : Option (List SegRef) := do
  match ← s.base.findNode key with
  | none => some []
  | some id => s.base.segs id

/-- A segment of the overlay; its key is derived from its heading path. -/
def segRefOf (xxh3 : Bytes → UInt64) (key : UrlKey) (v : SegView) : SegRef :=
  { key := xxh3 (segKeyBytes key (strBytes v.label)), label := v.label, byteRange := v.byteRange,
    depth := v.depth, importance := v.importance, flags := v.flags }

/-- The segments of `key`: an overlay whole-set replacement wins. -/
def segments (xxh3 : Bytes → UInt64) (key : UrlKey) : Option (List SegRef) :=
  match s.overlay.get key with
  | none => s.baseSegments key
  | some p =>
    if p.removed || (p.segs.isNone && p.severed) then some []
    else
      match p.segs with
      | some vs => some (vs.map (segRefOf xxh3 key))
      | none => s.baseSegments key

end Snapshot

/-! ## Due lists -/

/-- One entry of a due-for-revalidation work list. -/
structure DueItem where
  url : String
  key : UrlKey
  etag : Option String
  overdueMs : Nat
  rankPermille : UInt16
  deriving DecidableEq

/-- Most important first: rank, then overdue, both descending, then key. -/
def DueItem.before (a b : DueItem) : Bool :=
  if a.rankPermille ≠ b.rankPermille then b.rankPermille < a.rankPermille
  else if a.overdueMs ≠ b.overdueMs then b.overdueMs < a.overdueMs
  else a.key ≤ b.key

namespace Snapshot

variable (s : Snapshot)

/-- The due item of a live node, if it is due. -/
def dueItem (now : UInt64) (n : NodeRef) : Option (Option DueItem) := do
  let next ← s.ttl.nextCheckAtMs n.fetchedAtMs (max n.intervalS 1) n.rankPermille
  if next ≤ now ∧ n.url ≠ "" then do
    let overdue ← ckSub now.toNat next.toNat
    some (some ⟨n.url, n.key, n.etag, overdue, n.rankPermille⟩)
  else some none

/-- Everything due at `now`, the first `max` in order. -/
def due (now : UInt64) (max : Nat) : Option (List DueItem) := do
  let live ← s.forEachLive
  let items ← live.mapM (s.dueItem now)
  some (((items.filterMap id).insertionSort fun a b => a.before b).take max)

end Snapshot

/-! ## Walks -/

/-- One node reached by a walk. -/
structure Hop where
  key : UrlKey
  src : UrlKey
  etype : EdgeType
  depth : Nat
  exactChain : Bool
  deriving DecidableEq

/-- Walk state: keys seen, the next frontier, the hops offered so far. -/
structure Walk where
  seen : List UrlKey
  next : List (UrlKey × Bool)
  hops : List Hop

namespace Walk

/-- Offer one edge. The visitor may keep state of its own, so its answer
    depends on every hop offered before. -/
def step (follow : EdgeType → Bool) (visit : List Hop → Hop → Bool) (node : UrlKey) (chain : Bool)
    (depth : Nat) (w : Walk) (key : UrlKey) (etype : EdgeType) (flags : UInt8) : Walk :=
  if !follow etype || w.seen.contains key then w
  else
    let hop : Hop := ⟨key, node, etype, depth, chain && (flags &&& eflags.exact != 0)⟩
    { seen := key :: w.seen
      next := if visit w.hops hop then w.next ++ [(key, hop.exactChain)] else w.next
      hops := w.hops ++ [hop] }

end Walk

namespace Snapshot

variable (s : Snapshot) (out inbound : Bool) (follow : EdgeType → Bool)
  (visit : List Hop → Hop → Bool)

/-- Expand one node of the frontier. -/
def expand (depth : Nat) (w : Walk) (node : UrlKey × Bool) : Option Walk := do
  let es ← if out then s.neighbors node.1 else some []
  let w := es.foldl (fun w e =>
    w.step follow visit node.1 node.2 depth e.dstKey e.etype e.flags) w
  let ins ← if inbound then s.inEdges node.1 else some []
  some (ins.foldl (fun w e => w.step follow visit node.1 node.2 depth e.src e.etype e.flags) w)

/-- The levels of the walk from `depth` on, `left` of them. -/
def walkLevels : Nat → Nat → Walk → List (UrlKey × Bool) → Option Walk
  | 0, _, w, _ => some w
  | left + 1, depth, w, frontier => do
    let w ← frontier.foldlM (s.expand out inbound follow visit depth) { w with next := [] }
    if w.next.isEmpty then some w else walkLevels left (depth + 1) w w.next

/-- Breadth-first walk; the hops offered to the visitor, in order. -/
def walkAlong (src : UrlKey) (maxDepth : UInt32) : Option (List Hop) :=
  (s.walkLevels out inbound follow visit maxDepth.toNat 1 ⟨[src], [], []⟩ [(src, true)]).map
    Walk.hops

end Snapshot

end GraphR
