import GraphR.Store.Snapshot
import GraphR.Store.Lexicon
import Mathlib.Data.List.ReduceOption

/-! # Queries

    Lexical scoring over the base lexicon in per-thread scratch buffers, direct
    matching of nodes only the overlay has, seed selection, a bounded expansion that
    does not pass through hubs, fusion, and a rendering under a token budget.

    Single-precision arithmetic is a parameter (`F32`): no result here depends on
    how it rounds. A read out of bounds is `none`, as everywhere; `u32` sums wrap,
    and `SearchReader.degreesFit` says when a degree sum does not. -/

namespace GraphR

open Wal ByteLib LookupLib

/-! ## Arithmetic -/

/-- Single-precision numbers: the value of a literal, the operations, and
    `partial_cmp`. -/
structure F32 (F : Type) where
  lit : ℚ → F
  add : F → F → F
  mul : F → F → F
  div : F → F → F
  ln : F → F
  max : F → F → F
  cmp : F → F → Option Ordering

namespace F32

variable {F : Type} (A : F32 F)

def nat (n : Nat) : F := A.lit n
/-- `a > b`. -/
def gt (a b : F) : Bool := A.cmp a b = some .gt
/-- `a >= b`. -/
def ge (a b : F) : Bool := A.cmp a b = some .gt ∨ A.cmp a b = some .eq
/-- `a <= b`. -/
def le (a b : F) : Bool := A.cmp a b = some .lt ∨ A.cmp a b = some .eq
/-- `b.partial_cmp(a).unwrap_or(Equal)`. -/
def descending (a b : F) : Ordering := (A.cmp b a).getD .eq

/-- The score of a tier. -/
def tier : Tier → F
  | .none => A.lit 0
  | .substr => A.lit 1
  | .pfx => A.lit 100
  | .exact => A.lit 1000

end F32

/-! ## Inputs and outputs -/

structure QueryOpts where
  limit : Nat
  depth : UInt8
  maxSeeds : Nat
  budget : UInt32

/-- A sub-document anchor attached to a hit. -/
structure Anchor where
  label : String
  byteRange : Option (UInt32 × UInt32)
  importance : UInt16

/-- One answer entry. -/
structure Hit (F : Type) where
  key : UrlKey
  url : String
  title : Option String
  snippet : Option String
  anchor : Option Anchor
  score : F
  seed : Bool

/-- The reads a query makes of its base beside those of the snapshot: the lexicon,
    and the degrees of a node. -/
structure SearchReader extends LexReader where
  /-- Where a node's outbound run starts and ends; `none` inside where there is no
      edge index. -/
  outRun : Nat → Option (Option (UInt32 × UInt32))
  inDegree : Nat → Option UInt32

namespace SearchReader

variable (r : SearchReader)

/-- A node's total degree. -/
def degree (id : Nat) : Option UInt32 := do
  let run ← r.outRun id
  let inbound ← r.inDegree id
  some (run.elim 0 (fun e => e.2 - e.1) + inbound)

/-- No degree sum of the first `n` nodes overflows. -/
def degreesFit (n : Nat) : Prop :=
  ∀ id < n, ∀ run inbound, r.outRun id = some run → r.inDegree id = some inbound →
    (run.elim 0 fun e => (e.2 - e.1).toNat) + inbound.toNat < 2 ^ 32

end SearchReader

/-! ## Scratch buffers -/

/-- What a query keeps per base node. -/
structure NodeScore (F : Type) where
  tiered : F
  matched : Nat
  lastTerm : Nat
  bestTermTier : F

/-- Per-thread dense scoring buffers, indexed by base node id. -/
structure Scratch (F : Type) where
  scores : List (NodeScore F)
  tierOf : List Tier

/-- `Vec::resize`. -/
def resize {α : Type} (xs : List α) (n : Nat) (x : α) : List α :=
  xs.take n ++ List.replicate (n - xs.length) x

/-- The best tier of each posted node for one term, and the nodes posted, in the
    order first seen. -/
structure Touch where
  tierOf : List Tier
  touched : List Nat

/-- Post one node at a tier; an id past the buffer is skipped. -/
def Touch.post (tier : Tier) (t : Touch) (id : Nat) : Touch :=
  match t.tierOf[id]? with
  | none => t
  | some e =>
    { tierOf := t.tierOf.set id (if e < tier then tier else e)
      touched := if e = .none then t.touched ++ [id] else t.touched }

section scoring
variable {F : Type} (A : F32 F)

def NodeScore.zero : NodeScore F := ⟨A.lit 0, 0, 0, A.lit 0⟩

/-- The buffers at their default. -/
def Scratch.empty : Scratch F := ⟨[], []⟩

/-- Grow the buffers to the base. -/
def Scratch.grow (sc : Scratch F) (n : Nat) : Scratch F :=
  if sc.scores.length < n then
    ⟨resize sc.scores n (.zero A), resize sc.tierOf n .none⟩
  else sc

/-- Scoring in progress: the buffers, the nodes with a score in the order first
    scored, and the best node of each term done. -/
structure Scoring (F : Type) where
  scratch : Scratch F
  scored : List Nat
  best : List (Option (F × Nat))

/-- Scoring of one term in progress. -/
structure Drain (F : Type) where
  scratch : Scratch F
  scored : List Nat
  best : Option (F × Nat)

/-- A node's score with the contribution of term number `ti`. -/
def NodeScore.scored (sc : NodeScore F) (ti : Nat) (contribution : F) : NodeScore F :=
  { tiered := A.add sc.tiered contribution
    matched := if sc.lastTerm ≠ ti + 1 then sc.matched + 1 else sc.matched
    lastTerm := ti + 1
    bestTermTier := if A.gt contribution sc.bestTermTier then contribution else sc.bestTermTier }

/-- Move one touched node's tier into its score, leaving the tier zero. -/
def Drain.step (ti : Nat) (idf : F) (st : Drain F) (id : Nat) : Option (Drain F) := do
  let tier ← st.scratch.tierOf[id]?
  let sc ← st.scratch.scores[id]?
  let contribution := A.mul (A.tier tier) idf
  let better := st.best.all fun b =>
    A.gt contribution b.1 || (A.ge contribution b.1 && decide (id < b.2))
  some
    { scratch :=
        { scores := st.scratch.scores.set id (sc.scored A ti contribution)
          tierOf := st.scratch.tierOf.set id .none }
      scored := if sc.matched = 0 then st.scored ++ [id] else st.scored
      best := if better then some (contribution, id) else st.best }

/-- The document count behind the idf: the largest of the exact matches. -/
def exactDf (ix : LexReader) (df : Nat) (e : Nat × Tier) : Option Nat :=
  if .exact ≤ e.2 then (ix.df e.1).map (max df) else some df

/-- Post the nodes of one lexicon match. -/
def emitMatch (ix : LexReader) (st : Nat × Touch) (e : Nat × Tier) : Option (Nat × Touch) := do
  let df ← exactDf ix st.1 e
  let ids ← ix.postings e.1
  some (df, (ids.getD []).foldl (Touch.post e.2) st.2)

/-- The weight of a term found in `df` documents. -/
def idf (nDocs : F) (df : Nat) : F :=
  A.max (A.ln (A.add (A.lit 1) (A.div nDocs (A.add (A.lit 1) (A.nat df))))) (A.lit (1 / 10))

/-- Score the nodes of one term. -/
def scoreTerm (xxh3 : Bytes → UInt64) (ix : LexReader) (nDocs : F) (st : Scoring F)
    (e : String × Nat) : Option (Scoring F) := do
  let out ← ix.lexMatches e.1 (xxh3 (strBytes e.1))
  let posted ← out.foldlM (emitMatch ix) (0, ⟨st.scratch.tierOf, []⟩)
  let d ← posted.2.touched.foldlM (Drain.step A e.2 (idf A nDocs posted.1))
    ⟨⟨st.scratch.scores, posted.2.tierOf⟩, st.scored, none⟩
  some ⟨d.scratch, d.scored, st.best ++ [d.best]⟩

/-- Score every term. -/
def scoreTerms (xxh3 : Bytes → UInt64) (ix : LexReader) (nDocs : F) (terms : List String)
    (sc : Scratch F) : Option (Scoring F) :=
  terms.zipIdx.foldlM (scoreTerm A xxh3 ix nDocs) ⟨sc, [], []⟩

/-- A score scaled by squared coverage. -/
def NodeScore.coverage (sc : NodeScore F) (nTerms : Nat) : F :=
  let coverage := A.div (A.nat sc.matched) (A.nat nTerms)
  A.mul (A.mul sc.tiered coverage) coverage

/-- Higher scores first, then lower ids or keys. -/
def byScore (a b : Nat × F) : Prop := (A.descending a.2 b.2).then (compare a.1 b.1) ≠ .gt

instance (a b : Nat × F) : Decidable (byScore A a b) := inferInstanceAs (Decidable (_ ≠ _))

/-- A node with its coverage score. -/
def coverageScore (scores : List (NodeScore F)) (nTerms id : Nat) : Option (Nat × F) :=
  scores[id]?.map fun sc => (id, sc.coverage A nTerms)

/-- The leaders by coverage score, in order. -/
def leaders (scores : List (NodeScore F)) (nTerms maxSeeds : Nat) (scored : List Nat) :
    Option (List (Nat × F)) := do
  let all ← scored.mapM (coverageScore A scores nTerms)
  some ((all.insertionSort (byScore A)).take maxSeeds)

/-- The seeds: the best node of each term, then the leaders. -/
def pickSeeds (best : List (Option (F × Nat))) (lead : List (Nat × F)) (maxSeeds : Nat) :
    List Nat :=
  let firsts := best.reduceOption.foldl
    (fun acc b => if b.2 ∈ acc then acc else acc ++ [b.2]) ([] : List Nat)
  lead.foldl
    (fun acc e => if maxSeeds ≤ acc.length then acc else if e.1 ∈ acc then acc else acc ++ [e.1])
    ((firsts.insertionSort (· ≤ ·)).take maxSeeds)

/-- A seed's own score. -/
def seedScore (scores : List (NodeScore F)) (nTerms id : Nat) : F :=
  match scores[id]? with
  | some sc => if 0 < sc.matched then sc.coverage A nTerms else A.lit 0
  | none => A.lit 0

/-- Zero the scores of the scored nodes. -/
def resetScores (scores : List (NodeScore F)) (scored : List Nat) : Option (List (NodeScore F)) :=
  scored.foldlM (fun scores id =>
    if id < scores.length then some (scores.set id (.zero A)) else none) scores

end scoring

/-! ## The pipeline -/

/-- A ranked result before it is rendered. -/
structure Candidate (F : Type) where
  seed : Bool
  score : F
  key : UrlKey

/-- Expansion in progress: the arrivals, and the next frontier. -/
structure Spread (F : Type) where
  arrival : SortedMap Nat F
  next : List (Nat × F)

section pipeline
variable {F : Type} (A : F32 F) (u : Unicode) (xxh3 : Bytes → UInt64) (s : Snapshot)
  (ix : SearchReader)

/-- The tokens of a node only the overlay has: URL without scheme, title, snippet.
    `none` inside for a key the base has, or one that is not offered. -/
def freshHay (k : UrlKey) : Option (Option (List String)) := do
  match ← s.base.findNode k with
  | some _ => some none
  | none =>
    match ← s.node k with
    | none => some none
    | some n =>
      if n.isTombstone ∨ n.url = "" then some none
      else some (some (([searchable n.url] ++ n.title.toList ++ n.snippet.toList).flatMap u.terms))

/-- The best tier of each term over a node's tokens. -/
def overlayTier (hay : List String) (term : String) : Tier := bestTier (hay.map (tierOf term))

/-- The score of a node only the overlay has, unless no term matches. -/
def freshScore (nDocs : F) (terms hay : List String) : Option F :=
  let sum := terms.foldl (fun (st : Nat × F) term =>
    if overlayTier hay term = .none then st
    else (st.1 + 1, A.add st.2
      (A.mul (A.tier (overlayTier hay term)) (A.ln (A.add (A.lit 1) nDocs))))) (0, A.lit 0)
  if 0 < sum.1 then
    let coverage := A.div (A.nat sum.1) (A.nat terms.length)
    some (A.mul (A.mul sum.2 coverage) coverage)
  else none

/-- The nodes only the overlay has that match, best first. -/
def freshHits (nDocs : F) (terms : List String) : Option (List (UrlKey × F)) := do
  let found ← s.overlay.keys.mapM fun k => do
    let hay ← freshHay u s k
    some ((hay.bind (freshScore A nDocs terms)).map fun sc => (k, sc))
  some (found.reduceOption.insertionSort fun a b =>
    byScore A (a.1.toNat, a.2) (b.1.toNat, b.2))

/-- The p99 total degree, 8 at least. -/
def hubThreshold : Option UInt32 :=
  if s.base.nodeCount = 0 then some 0xFFFFFFFF
  else do
    let degrees ← (List.range s.base.nodeCount).mapM ix.degree
    let sorted := degrees.insertionSort (· ≤ ·)
    let p99 ← sorted[min (s.base.nodeCount * 99 / 100) (s.base.nodeCount - 1)]?
    some (max p99 8)

/-- Offer one edge of a node that arrived with a score. -/
def Spread.offer (score : F) (st : Spread F) (e : EdgeRef) : Spread F :=
  match e.dst with
  | none => st
  | some dst =>
    let conf := if e.flags &&& eflags.inferred ≠ 0 then A.lit (6 / 10) else A.lit 1
    let w := A.div (A.nat (max e.weight 1).toNat) (A.lit 65535)
    let sc := A.mul (A.mul (A.mul score (A.lit (5 / 10))) w) conf
    if A.le sc (A.lit 0) then st
    else
      let slot := (st.arrival.get dst).getD (A.lit 0)
      if A.gt sc slot then ⟨st.arrival.insert dst sc, st.next ++ [(dst, sc)]⟩
      else ⟨st.arrival.insert dst slot, st.next⟩

/-- Expand one node; a hub is reported, never traversed through. -/
def Spread.node (seeds : List Nat) (hub : UInt32) (st : Spread F) (e : Nat × F) :
    Option (Spread F) := do
  let r ← s.base.nodeRec e.1
  let degree ← ix.degree e.1
  if e.1 ∉ seeds ∧ hub ≤ degree then some st
  else do
    let es ← s.neighbors r.key
    some (es.foldl (Spread.offer A e.2) st)

/-- Expand hop by hop. -/
def spread (seeds : List Nat) (hub : UInt32) :
    Nat → SortedMap Nat F → List (Nat × F) → Option (SortedMap Nat F)
  | 0, arrival, _ => some arrival
  | hops + 1, arrival, frontier => do
    let st ← frontier.foldlM (Spread.node A s ix seeds hub) ⟨arrival, []⟩
    if st.next.isEmpty then some st.arrival else spread seeds hub hops st.arrival st.next

/-- Fuse one arrival with its importance: stubs, tombstones and removed keys are no
    results. -/
def fuse (seeds : List Nat) (maxArrival : F) (e : Nat × F) : Option (Option (Candidate F)) := do
  let r ← s.base.nodeRec e.1
  if hasFlag r.flags nflags.tombstone ∨ hasFlag r.flags nflags.stub then some none
  else if (s.overlay.get r.key).any (·.removed) then some none
  else do
    let rank ← s.base.rankPermille e.1
    let fused := A.add (A.mul (A.lit (8 / 10)) (A.div e.2 maxArrival))
      (A.div (A.mul (A.lit (2 / 10)) (A.nat rank.toNat)) (A.lit 1000))
    some (some ⟨e.1 ∈ seeds, fused, r.key⟩)

/-- Seeds first, then higher scores, then lower keys. -/
def Candidate.before (a b : Candidate F) : Prop :=
  ((compare b.seed a.seed).then (A.descending a.score b.score)).then
    (compare a.key.toNat b.key.toNat) ≠ .gt

instance (a b : Candidate F) : Decidable (a.before A b) := inferInstanceAs (Decidable (_ ≠ _))

/-- The largest of the scores, above zero. -/
def maxScore (scores : List F) : F :=
  A.max (scores.foldl A.max (A.lit 0)) (A.lit (1 / 2 ^ 126))

/-- Where the expansion starts: each seed with its own score. -/
def seedStart (scores : List (NodeScore F)) (nTerms : Nat) (seeds : List Nat) : List (Nat × F) :=
  seeds.map fun id => (id, seedScore A scores nTerms id)

/-- Expand from the seeds and fuse what the expansion arrives at. -/
def arrivals (seeds : List Nat) (start : List (Nat × F)) (depth : UInt8) :
    Option (List (Candidate F)) := do
  let hub ← hubThreshold s ix
  let arrival ← spread A s ix seeds hub depth.toNat
    (start.foldl (fun m e => m.insert e.1 e.2) .empty) start
  let found ← arrival.entries.mapM (fuse A s seeds (maxScore A (arrival.entries.map Prod.snd)))
  some found.reduceOption

/-- The fresh hits as candidates. -/
def freshCandidates (fresh : List (UrlKey × F)) : List (Candidate F) :=
  fresh.map fun e =>
    ⟨true, A.mul (A.lit (8 / 10)) (A.div e.2 (maxScore A (fresh.map Prod.snd))), e.1⟩

/-- Everything the query ranks, in order. -/
def rankScored (nDocs : F) (terms : List String) (opts : QueryOpts) (st : Scoring F) :
    Option (List (Candidate F)) := do
  let lead ← leaders A st.scratch.scores terms.length opts.maxSeeds st.scored
  let fresh ← freshHits A u s nDocs terms
  let seeds := pickSeeds st.best lead opts.maxSeeds
  let found ← arrivals A s ix seeds (seedStart A st.scratch.scores terms.length seeds) opts.depth
  some ((found ++ freshCandidates A fresh).insertionSort (Candidate.before A))

/-- Score in the buffers of the thread, rank, and hand the buffers back reset. -/
def candidates (sc : Scratch F) (terms : List String) (opts : QueryOpts) :
    Option (List (Candidate F) × Scratch F) := do
  let nDocs := A.nat (max s.base.nodeCount 1)
  let st ← scoreTerms A xxh3 ix.toLexReader nDocs terms (sc.grow A s.base.nodeCount)
  let ranked ← rankScored A u s ix nDocs terms opts st
  let scores ← resetScores A st.scratch.scores st.scored
  some (ranked, ⟨scores, st.scratch.tierOf⟩)

/-! ### Rendering -/

/-- The tokens of a label some term equals or starts. -/
def labelMatches (terms : List String) (label : String) : Nat :=
  (u.terms label).countP fun tok => terms.any fun t => tok = t ∨ startsWith tok t

/-- The segment with the most matching tokens, of those the most important. -/
def bestAnchor (terms : List String) (key : UrlKey) : Option (Option Anchor) := do
  let segs ← s.segments xxh3 key
  let best := segs.foldl (fun (best : Option (Nat × UInt16 × Anchor)) seg =>
    let n := labelMatches u terms seg.label
    if n = 0 then best
    else if best.all fun b => b.1 < n ∨ (n = b.1 ∧ b.2.1 < seg.importance) then
      some (n, seg.importance, ⟨seg.label, seg.byteRange, seg.importance⟩)
    else best) none
  some (best.map fun b => b.2.2)

/-- The model tokens a rendered entry costs. -/
def estimateTokens (url : String) (title snippet : Option String) (anchor : Option Anchor) :
    UInt32 :=
  let bytes := strLen url + title.elim 0 strLen + snippet.elim 0 strLen
    + anchor.elim 0 (fun a => strLen a.label + 12) + 16
  UInt32.ofNat ((bytes + 3) / 4)

/-- Render the ranked results, `out` of them so far at a cost of `spent`, within
    the limit and the budget. -/
def render (terms : List String) (opts : QueryOpts) :
    List (Candidate F) → UInt32 → List (Hit F) → Option (List (Hit F))
  | [], _, out => some out
  | c :: rest, spent, out =>
    if opts.limit ≤ out.length then some out
    else do
      match ← s.node c.key with
      | none => render terms opts rest spent out
      | some n =>
        let anchor ← bestAnchor u xxh3 s terms c.key
        let cost := estimateTokens n.url n.title n.snippet anchor
        if opts.budget < spent + cost then some out
        else
          render terms opts rest (spent + cost)
            (out ++ [⟨c.key, n.url, n.title, n.snippet, anchor, c.score, c.seed⟩])

/-- Answer a query from the buffers an earlier one left, with those this one
    leaves. -/
def query (sc : Scratch F) (text : String) (opts : QueryOpts) :
    Option (List (Hit F) × Scratch F) :=
  let terms := u.dedupTerms text
  if terms = [] then some ([], sc)
  else do
    let ranked ← candidates A u xxh3 s ix sc terms opts
    let hits ← render u xxh3 s terms opts ranked.1 0 []
    some (hits, ranked.2)

/-! ### Related documents -/

/-- The score of an outbound edge: links before similarity of the same weight. -/
def relatedScore (e : EdgeRef) : F :=
  let conf := if e.flags &&& eflags.inferred ≠ 0 then A.lit (6 / 10) else A.lit 1
  let bonus := if e.etype = .link then A.lit (25 / 100) else A.lit 0
  A.add (A.mul (A.div (A.nat e.weight.toNat) (A.lit 65535)) conf) bonus

/-- The first `k` of the ranked destinations that are documents. -/
def relatedHits (k : Nat) : List (UrlKey × F) → List (Hit F) → Option (List (Hit F))
  | [], out => some out
  | e :: rest, out =>
    if k ≤ out.length then some out
    else do
      match ← s.node e.1 with
      | none => relatedHits k rest out
      | some n =>
        if n.isStub ∨ n.isTombstone then relatedHits k rest out
        else
          relatedHits k rest (out ++ [⟨e.1, n.url, n.title, n.snippet, none, e.2, false⟩])

/-- Documents most related to `key`, strongest first. -/
def related (key : UrlKey) (k : Nat) : Option (List (Hit F)) := do
  let es ← s.neighbors key
  let ranked := (es.map fun e => (e.dstKey, relatedScore A e)).insertionSort fun a b =>
    byScore A (a.1.toNat, a.2) (b.1.toNat, b.2)
  relatedHits s k ranked []

end pipeline

end GraphR
