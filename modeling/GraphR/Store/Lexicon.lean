import GraphR.Store.Base
import GraphR.Store.Text

/-! # The lexicon and its search indices

    Compaction collects every token of every node with the ids of the nodes it
    stands in, keyed by its hash, and builds two indices over the collected
    tokens: their string order and the postings of their byte trigrams. A lookup
    goes through these three and never scans the vocabulary
    (`LexReader.lexMatches`); what it finds is what a scan would
    (`lexMatches_scan`). -/

namespace GraphR

open ByteLib LookupLib

/-! ## Reads -/

/-- The reads a lookup makes of the lexicon sections, by position. `none` is a
    fault. -/
structure LexReader where
  tokenCount : Nat
  tokenHash : Nat → Option UInt64
  /-- The token's label, empty where there is none. -/
  token : Nat → Option String
  df : Nat → Option Nat
  /-- The node ids of a token, `none` inside where they do not decode. -/
  postings : Nat → Option (Option (List Nat))
  orderCount : Nat
  order : Nat → Option Nat
  triCount : Nat
  triKey : Nat → Option Nat
  triIds : Nat → Option (List Nat)

/-- The 24-bit key of a byte trigram. -/
def trigram (w : Bytes) : Nat :=
  (w.getD 0 0).toNat * 65536 + (w.getD 1 0).toNat * 256 + (w.getD 2 0).toNat

namespace LexReader

variable (r : LexReader)

/-- The record with the hash, by binary search. -/
def findExact (hash : UInt64) : Option (Option Nat) := do
  let lo ← bound (fun i => (r.tokenHash i).map fun h => decide (h < hash)) r.tokenCount
  if lo < r.tokenCount then do
    let h ← r.tokenHash lo
    some (if h = hash then some lo else none)
  else some none

/-- The run of tokens starting with the term from place `k` of the order on,
    `left` places at most. -/
def prefixFrom (term : String) (exact : Option Nat) : Nat → Nat → Option (List (Nat × Tier))
  | 0, _ => some []
  | left + 1, k => do
    let i ← r.order k
    let t ← r.token i
    if startsWith t term then do
      let rest ← prefixFrom term exact left (k + 1)
      some (if some i ≠ exact then (i, .pfx) :: rest else rest)
    else some []

/-- The tokens starting with the term, the exact one apart. -/
def prefixRun (term : String) (exact : Option Nat) : Option (List (Nat × Tier)) := do
  let lo ← bound (fun k => do
    let i ← r.order k
    let t ← r.token i
    some (decide (strLt t term))) r.orderCount
  r.prefixFrom term exact (r.orderCount - lo) lo

/-- The tokens posted under a trigram. -/
def lookup (g : Nat) : Option (List Nat) := do
  let lo ← bound (fun i => (r.triKey i).map fun k => decide (k < g)) r.triCount
  if lo < r.triCount then do
    let k ← r.triKey lo
    if k = g then r.triIds lo else some []
  else some []

/-- The shortest of the trigrams' postings; empty as soon as one is. -/
def rarest : List Bytes → Option (List Nat) → Option (List Nat)
  | [], best => some (best.getD [])
  | w :: ws, best => do
    let ids ← r.lookup (trigram w)
    if ids.isEmpty then some []
    else rarest ws (if best.all fun b => decide (ids.length < b.length) then some ids else best)

/-- The candidates that contain the term without starting with it. -/
def substrRun (term : String) (ids : List Nat) : Option (List (Nat × Tier)) := do
  let toks ← ids.mapM fun i => do
    let t ← r.token i
    some (i, t)
  some ((toks.filter fun e => containsStr e.2 term ∧ ¬startsWith e.2 term).map fun e =>
    (e.1, .substr))

/-- The substring matches, through the term's trigrams: none for a term without
    any. -/
def substrMatches (term : String) : Option (List (Nat × Tier)) :=
  if strLen term < 3 then some []
  else do
    let ids ← r.rarest (windows 3 (strBytes term)) none
    r.substrRun term ids

/-- Lexicon tokens matching `term`, each with its tier: exact by hash, prefix by
    string order, substring through the trigrams of a term of 3 bytes and more. -/
def lexMatches (term : String) (hash : UInt64) : Option (List (Nat × Tier)) := do
  let exact ← r.findExact hash
  let run ← r.prefixRun term exact
  let sub ← r.substrMatches term
  some (exact.toList.map (fun i => (i, .exact)) ++ run ++ sub)

end LexReader

/-! ## What compaction collects -/

/-- The texts of a node that are indexed: the URL without scheme, title, snippet,
    segment labels. -/
def NodeModel.texts (m : NodeModel) : List String :=
  (if m.url = "" then [] else [searchable m.url]) ++ m.title.toList ++ m.snippet.toList
    ++ m.segs.map SegModel.label

/-- The indexed tokens of a node. -/
def NodeModel.tokens (u : Unicode) (m : NodeModel) : List String := m.texts.flatMap u.terms

section collect
variable (xxh3 : Bytes → UInt64) (u : Unicode)

/-- Post node `id` under a token. -/
def pushToken (lex : SortedMap UInt64 (String × List Nat)) (e : String × Nat) :
    SortedMap UInt64 (String × List Nat) :=
  lex.update (xxh3 (strBytes e.1)) fun entry =>
    let (label, ids) := entry.getD (e.1, [])
    (label, pushId e.2 ids)

/-- The tokens of every node with the node's id, in order. -/
def tokenEvents (nodes : SortedMap UrlKey NodeModel) : List (String × Nat) :=
  nodes.entries.zipIdx.flatMap fun e => (e.1.2.tokens u).map fun t => (t, e.2)

/-- Token hash → (label, ascending node ids). -/
def collectTokens (nodes : SortedMap UrlKey NodeModel) : SortedMap UInt64 (String × List Nat) :=
  (tokenEvents u nodes).foldl (pushToken xxh3) .empty

end collect

/-- The lexicon sections of a base, decoded. -/
structure Lexicon where
  records : SortedMap UInt64 (String × List Nat)
  /-- Positions of the records, by token. -/
  order : List Nat
  /-- Positions of the records a byte trigram occurs in. -/
  trigrams : SortedMap Nat (List Nat)

namespace Lexicon

/-- The tokens of the collected records, in hash order. -/
def tokensOf (records : SortedMap UInt64 (String × List Nat)) : List String :=
  records.entries.map fun e => e.2.1

/-- The positions in string order. -/
def orderOf (tokens : List String) : List Nat :=
  (List.range tokens.length).insertionSort fun a b =>
    strBytes (tokens.getD a "") ≤ strBytes (tokens.getD b "")

/-- The byte trigrams of every token with the token's position, in order. -/
def trigramEvents (tokens : List String) : List (Nat × Nat) :=
  tokens.zipIdx.flatMap fun e => (windows 3 (strBytes e.1)).map fun w => (trigram w, e.2)

/-- Trigram → ascending token positions. -/
def trigramsOf (tokens : List String) : SortedMap Nat (List Nat) :=
  (trigramEvents tokens).foldl
    (fun acc e => acc.update e.1 fun ids => pushId e.2 (ids.getD [])) .empty

/-- The records with their indices. -/
def index (records : SortedMap UInt64 (String × List Nat)) : Lexicon :=
  ⟨records, orderOf (tokensOf records), trigramsOf (tokensOf records)⟩

variable (lex : Lexicon)

/-- The reads of a decoded lexicon. -/
def reader : LexReader where
  tokenCount := lex.records.entries.length
  tokenHash := fun i => lex.records.entries[i]?.map Prod.fst
  token := fun i => lex.records.entries[i]?.map fun e => e.2.1
  df := fun i => lex.records.entries[i]?.map fun e => e.2.2.length
  postings := fun i => lex.records.entries[i]?.map fun e => some e.2.2
  orderCount := lex.order.length
  order := fun k => lex.order[k]?
  triCount := lex.trigrams.entries.length
  triKey := fun i => lex.trigrams.entries[i]?.map Prod.fst
  triIds := fun i => lex.trigrams.entries[i]?.map Prod.snd

end Lexicon

/-- The lexicon compaction writes beside the nodes of a base. -/
def Base.lexicon (xxh3 : Bytes → UInt64) (u : Unicode) (b : Base) : Lexicon :=
  .index (collectTokens xxh3 u b.nodes)

/-! ## The collected records -/

section collected
variable {xxh3 : Bytes → UInt64} {u : Unicode}

/-- The ids posted under a hash. -/
def postedIds (lex : SortedMap UInt64 (String × List Nat)) (h : UInt64) : List Nat :=
  ((lex.get h).map Prod.snd).getD []

/-- What collecting keeps: each record's label has the record's hash and is one of
    the tokens, and its ids are those posted under the hash. -/
structure Collected (xxh3 : Bytes → UInt64) (lex : SortedMap UInt64 (String × List Nat))
    (events : List (String × Nat)) : Prop where
  label : ∀ h l ids, lex.get h = some (l, ids) → xxh3 (strBytes l) = h ∧ ∃ i, (l, i) ∈ events
  posts : Posts (postedIds lex) (events.map fun e => (xxh3 (strBytes e.1), e.2))

theorem Collected.push {lex : SortedMap UInt64 (String × List Nat)}
    {events : List (String × Nat)} (h : Collected xxh3 lex events) {e : String × Nat}
    (hlast : ∀ e' ∈ events, e'.2 ≤ e.2) :
    Collected xxh3 (pushToken xxh3 lex e) (events ++ [e]) := by
  have hget : ∀ k, (pushToken xxh3 lex e).get k = if k = xxh3 (strBytes e.1)
      then some (((lex.get (xxh3 (strBytes e.1))).getD (e.1, [])).1,
        pushId e.2 ((lex.get (xxh3 (strBytes e.1))).getD (e.1, [])).2)
      else lex.get k := by
    intro k
    unfold pushToken
    rw [SortedMap.get_update]
  constructor
  · intro k l ids hk
    rw [hget] at hk
    by_cases heq : k = xxh3 (strBytes e.1)
    · rw [if_pos heq, Option.some.injEq, Prod.mk.injEq] at hk
      cases hold : lex.get (xxh3 (strBytes e.1)) with
      | none =>
        rw [hold, Option.getD_none] at hk
        obtain ⟨rfl, -⟩ := hk
        exact ⟨heq.symm, e.2, by simp⟩
      | some v =>
        obtain ⟨l', ids'⟩ := v
        rw [hold, Option.getD_some] at hk
        obtain ⟨rfl, -⟩ := hk
        obtain ⟨hhash, i, hi⟩ := h.label _ _ _ hold
        exact ⟨hhash.trans heq.symm, i, List.mem_append_left _ hi⟩
    · rw [if_neg heq] at hk
      obtain ⟨hhash, i, hi⟩ := h.label _ _ _ hk
      exact ⟨hhash, i, List.mem_append_left _ hi⟩
  · have hposts := @Posts.push UInt64 _ _ _ h.posts (xxh3 (strBytes e.1)) e.2 (by
      intro e' he'
      obtain ⟨e'', he'', rfl⟩ := List.mem_map.mp he'
      exact hlast e'' he'')
    have hids : (fun k => if k = xxh3 (strBytes e.1)
          then pushId e.2 (postedIds lex (xxh3 (strBytes e.1))) else postedIds lex k)
        = postedIds (pushToken xxh3 lex e) := by
      funext k
      unfold postedIds
      rw [hget]
      by_cases heq : k = xxh3 (strBytes e.1)
      · rw [if_pos heq, if_pos heq]
        cases lex.get (xxh3 (strBytes e.1)) <;> rfl
      · rw [if_neg heq, if_neg heq]
    rw [hids] at hposts
    rwa [List.map_append]

/-- Posting in document order collects. -/
theorem collected_foldl (events : List (String × Nat))
    (hsorted : events.Pairwise fun a b => a.2 ≤ b.2) :
    Collected xxh3 (events.foldl (pushToken xxh3) .empty) events := by
  induction events using List.reverseRecOn with
  | nil =>
    refine ⟨?_, ?_, ?_⟩
    · intro h l ids hget
      cases hget
    · exact fun _ => List.Pairwise.nil
    · simp [postedIds]
  | append_singleton events e ih =>
    rw [List.foldl_append, List.foldl_cons, List.foldl_nil]
    obtain ⟨hfront, -, hlast⟩ := List.pairwise_append.mp hsorted
    exact (ih hfront).push fun e' he' => hlast e' he' e (by simp)

/-- Pieces tagged with their position come in position order. -/
theorem zipIdx_flatMap_ordered {α β : Type} (xs : List α) (f : α → List β) :
    (xs.zipIdx.flatMap fun e => (f e.1).map fun b => (b, e.2)).Pairwise
      fun a b => a.2 ≤ b.2 := by
  rw [List.pairwise_flatMap]
  constructor
  · intro e _
    rw [List.pairwise_map]
    exact List.pairwise_of_forall fun _ _ => le_rfl
  · have hidx : xs.zipIdx.Pairwise fun a b => a.2 < b.2 := by
      rw [List.pairwise_iff_getElem]
      intro i j hi hj hij
      simpa using hij
    refine hidx.imp ?_
    intro a b hab x hx y hy
    obtain ⟨x', -, rfl⟩ := List.mem_map.mp hx
    obtain ⟨y', -, rfl⟩ := List.mem_map.mp hy
    exact le_of_lt hab

theorem collected_collectTokens (nodes : SortedMap UrlKey NodeModel) :
    Collected xxh3 (collectTokens xxh3 u nodes) (tokenEvents u nodes) :=
  collected_foldl _ (zipIdx_flatMap_ordered nodes.entries fun e => e.2.tokens u)

theorem mem_tokenEvents {nodes : SortedMap UrlKey NodeModel} {t : String} {id : Nat} :
    (t, id) ∈ tokenEvents u nodes ↔ ∃ k m, nodes.entries[id]? = some (k, m) ∧ t ∈ m.tokens u := by
  unfold tokenEvents
  rw [List.mem_flatMap]
  constructor
  · rintro ⟨⟨⟨k, m⟩, i⟩, hmem, ht⟩
    obtain ⟨t', ht', heq⟩ := List.mem_map.mp ht
    cases heq
    exact ⟨k, m, List.mem_zipIdx_iff_getElem?.mp hmem, ht'⟩
  · rintro ⟨k, m, hget, ht⟩
    exact ⟨((k, m), id), List.mem_zipIdx_iff_getElem?.mpr hget, List.mem_map.mpr ⟨t, ht, rfl⟩⟩

end collected

end GraphR
