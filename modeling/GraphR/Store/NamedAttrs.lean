import GraphR.Library.Lookup
import GraphR.Format.Wal.Calls
import GraphR.Store.SideCalls

/-! # The attributes of a document

    `set_attrs` and `set_named_attrs` check their list, keep the value given last
    for each key, sort, and hand the records to one encoder; a named record is
    `name NUL value` under its place in name order. What a list is to leave is
    said here without the loops: ascending keys, each with the last value given
    (`IsLastOf`). -/

namespace GraphR

open Wal ByteLib

/-! ## The last value of each key -/

/-- The value given last for `k`. -/
def lastValue {κ : Type} [DecidableEq κ] (attrs : List (κ × String)) (k : κ) : Option String :=
  (attrs.reverse.find? fun a => a.1 = k).map Prod.snd

/-- `set` has the last value of every key of `attrs`, in the order `lt`. -/
structure IsLastOf {κ : Type} [DecidableEq κ] (lt : κ → κ → Prop) (attrs set : List (κ × String)) :
    Prop where
  ascending : set.Pairwise fun a b => lt a.1 b.1
  last : ∀ k v, (k, v) ∈ set ↔ lastValue attrs k = some v

theorem mem_firstBy {α κ : Type} [DecidableEq κ] {f : α → κ} {l : List α} {a : α} :
    a ∈ firstBy f l ↔ l.find? (fun b => f b = f a) = some a := by
  induction l with
  | nil => simp [firstBy]
  | cons b l ih =>
    rw [firstBy, List.find?_cons]
    by_cases hb : f b = f a
    · simp only [hb, decide_true, Option.some.injEq, List.mem_cons, List.mem_filter, ne_eq,
        not_true_eq_false, decide_false, Bool.false_eq_true, and_false, or_false]
      exact eq_comm
    · have hne : a ≠ b := fun h => hb (by rw [h])
      simp only [hb, decide_false, List.mem_cons, hne, false_or, List.mem_filter, ih]
      simp [Ne.symm hb]

/-- Keeping the last of each key and sorting gives the last values in order. -/
theorem isLastOf_sorted {κ : Type} [DecidableEq κ] {lt le : κ → κ → Prop}
    [DecidableRel le] (htotal : ∀ a b, le a b ∨ le b a) (htrans : ∀ a b c, le a b → le b c → le a c)
    (hlt : ∀ a b, le a b → a ≠ b → lt a b) (attrs : List (κ × String)) :
    IsLastOf lt attrs
      ((firstBy Prod.fst attrs.reverse).insertionSort fun a b => le a.1 b.1) := by
  have hTotal : Std.Total fun a b : κ × String => le a.1 b.1 := ⟨fun a b => htotal a.1 b.1⟩
  have hTrans : IsTrans (κ × String) fun a b => le a.1 b.1 :=
    ⟨fun a b c => htrans a.1 b.1 c.1⟩
  constructor
  · have hsorted := List.pairwise_insertionSort (fun a b : κ × String => le a.1 b.1)
      (firstBy Prod.fst attrs.reverse)
    have hne := (List.perm_insertionSort (fun a b : κ × String => le a.1 b.1) _).symm.pairwise
      (firstBy_pairwise (f := Prod.fst) attrs.reverse) fun h => Ne.symm h
    exact (hsorted.and hne).imp fun h => hlt _ _ h.1 h.2
  · intro k v
    rw [List.mem_insertionSort, mem_firstBy, lastValue, Option.map_eq_some_iff]
    constructor
    · intro h
      exact ⟨(k, v), h, rfl⟩
    · rintro ⟨⟨k', v'⟩, h, rfl⟩
      have hk : k' = k := by simpa using List.find?_some h
      rw [← hk] at h ⊢
      exact h

namespace Writer

/-! ## `set_named_attrs` -/

/-- Longest attribute name. -/
def maxAttrName : Nat := 255

/-- The pass of `set_named_attrs` over the reversed attributes: a later name wins.
    `debug` is the formatting of a name in the error text. -/
def ownNamed (debug : String → String) : List (String × String) → List (String × String) →
    Except Error (List (String × String))
  | [], named => .ok named
  | a :: rest, named =>
    if strLen a.1 = 0 ∨ maxAttrName < strLen a.1 ∨ '\x00' ∈ a.1.toList then
      .error (.format "attribute name must be 1..=255 bytes without NUL")
    else if maxAttrLen < strLen a.1 + 1 + strLen a.2 then
      .error (.format ("attribute " ++ debug a.1 ++ " exceeds 262144 bytes"))
    else if named.any fun n => n.1 = a.1 then ownNamed debug rest named
    else ownNamed debug rest (named ++ [a])

/-- Attributes in the byte order of their names. -/
def sortNamed (named : List (String × String)) : List (String × String) :=
  named.insertionSort fun a b => strBytes a.1 ≤ strBytes b.1

/-- Each record is `name NUL value`, in parts, under its place. -/
def namedParts (named : List (String × String)) : List AttrParts :=
  named.zipIdx.map fun (a, k) => (UInt8.ofNat k, [a.1, "\x00", a.2])

/-- Stage a whole-set replacement of `key`'s attributes as name and value. -/
def setNamedAttrs (debug : String → String) (b : RecordBuf) (key : UrlKey)
    (attrs : List (String × String)) : Except Error RecordBuf :=
  if maxAttrs < attrs.length then .error (.format "more than 64 attributes")
  else do
    let named ← ownNamed debug attrs.reverse []
    let named := sortNamed named
    if maxAttrBytes < (named.map fun a => strLen a.1 + 1 + strLen a.2).sum then
      .error (.format "attributes exceed 1048246 bytes in total")
    else b.pushAttrParts key (namedParts named)

end Writer

/-! ## `named_attrs` -/

/-- Ascending keys and values within their cap are all the pass over the parts
    asks. -/
theorem attrPartsTotal_ok {prev : Option UInt8} {parts : List AttrParts}
    (hprev : ∀ p, prev = some p → ∀ a ∈ parts, p < a.1)
    (hasc : (parts.map Prod.fst).Pairwise (· < ·))
    (hlen : ∀ a ∈ parts, (attrBytes a).length ≤ maxAttrLen) :
    RecordBuf.attrPartsTotal prev parts
      = .ok (parts.map fun a => (attrBytes a).length).sum := by
  induction parts generalizing prev with
  | nil => rfl
  | cons a parts ih =>
    rw [List.map_cons, List.pairwise_cons] at hasc
    have hfirst : ¬(prev.any fun p => decide (a.1 ≤ p)) = true := by
      cases prev with
      | none => simp
      | some p => simpa using hprev p rfl a (by simp)
    have hrest : RecordBuf.attrPartsTotal (some a.1) parts
        = .ok (parts.map fun a => (attrBytes a).length).sum := by
      apply ih _ hasc.2 fun b hb => hlen b (by simp [hb])
      intro p hp b hb
      cases hp
      exact hasc.1 b.1 (List.mem_map_of_mem hb)
    have hcap : ¬maxAttrLen < (attrBytes a).length := Nat.not_lt.mpr (hlen a (by simp))
    rw [RecordBuf.attrPartsTotal, if_neg hfirst, if_neg hcap, hrest]
    rfl

/-- The writer's limits leave room for the op's fixed fields and entries. -/
theorem attrsFit_of_limits {parts : List AttrParts} (hcount : parts.length ≤ maxAttrs)
    (hasc : (parts.map Prod.fst).Pairwise (· < ·))
    (hlen : ∀ a ∈ parts, (attrBytes a).length ≤ maxAttrLen)
    (htotal : (parts.map fun a => (attrBytes a).length).sum ≤ maxAttrBytes) : attrsFit parts := by
  refine ⟨hcount, _, attrPartsTotal_ok (by simp) hasc hlen, ?_⟩
  have hmax : maxAttrs = 64 := rfl
  have hentry : attrEntry = 8 := rfl
  have hroom : maxAttrBytes + attrsFixed + 64 * 8 = maxOp := rfl
  rw [hmax] at hcount
  rw [hentry]
  omega

theorem pushAttrParts_eq {b : RecordBuf} {k : UrlKey} {parts : List AttrParts}
    (h : attrsFit parts) :
    b.pushAttrParts k parts = .ok (b.stage opAttrs 0 k (attrsBody parts)) := by
  have hok : (b.pushAttrParts k parts).isOk = true := (pushAttrParts_isOk b).mpr h
  cases hp : b.pushAttrParts k parts with
  | error e =>
    rw [hp] at hok
    exact absurd hok (by simp [Except.isOk, Except.toBool])
  | ok b' => rw [(pushAttrParts_ok hp).2]

/-- A value in one part. -/
theorem attrBytes_whole (k : UInt8) (v : String) : attrBytes (k, [v, "", ""]) = strBytes v := by
  simp [attrBytes]

/-! ## `set_attrs` -/

/-- What is asked of a list of attributes. -/
def AttrLimits (attrs : List (UInt8 × String)) : Prop :=
  attrs.length ≤ maxAttrs ∧ (∀ a ∈ attrs, strLen a.2 ≤ maxAttrLen) ∧
    ((attrSet attrs).map fun a => strLen a.2).sum ≤ maxAttrBytes

theorem attrSet_isLastOf (attrs : List (UInt8 × String)) :
    IsLastOf (· < ·) attrs (attrSet attrs) :=
  isLastOf_sorted UInt8.le_total (fun _ _ _ => UInt8.le_trans)
    (fun _ _ h hne => UInt8.lt_of_le_of_ne h hne) attrs

theorem attrSet_perm (attrs : List (UInt8 × String)) :
    (attrSet attrs).Perm (firstBy Prod.fst attrs.reverse) :=
  List.perm_insertionSort _ _

theorem mem_of_mem_attrSet {attrs : List (UInt8 × String)} {a : UInt8 × String}
    (h : a ∈ attrSet attrs) : a ∈ attrs := by
  have hmem := (firstBy_sublist _).subset ((attrSet_perm attrs).subset h)
  simpa using hmem

theorem length_attrSet_le (attrs : List (UInt8 × String)) :
    (attrSet attrs).length ≤ attrs.length := by
  have hle := (firstBy_sublist (f := Prod.fst) attrs.reverse).length_le
  rw [List.length_reverse] at hle
  rw [(attrSet_perm attrs).length_eq]
  exact hle

/-- Accepted for its limits only: what passes them the encoder takes. -/
theorem setAttrs_eq {attrs : List (UInt8 × String)} (b : RecordBuf) (k : UrlKey)
    (h : AttrLimits attrs) :
    Writer.setAttrs b k attrs = .ok (b.stage opAttrs 0 k
      (attrsBody ((attrSet attrs).map fun (k, v) => (k, [v, "", ""])))) := by
  obtain ⟨hcount, hlen, htotal⟩ := h
  have hown : Writer.ownAttrs attrs.reverse [] = .ok (firstBy Prod.fst attrs.reverse) := by
    rw [Writer.ownAttrs_eq_ownLast, Writer.ownLast_ok]
    refine ⟨?_, by simp⟩
    intro a ha
    exact if_neg (Nat.not_lt.mpr (hlen a (by simpa using ha)))
  have hsum : ((firstBy Prod.fst attrs.reverse).map fun a => strLen a.2).sum
      = ((attrSet attrs).map fun a => strLen a.2).sum :=
    (((attrSet_perm attrs).map fun a => strLen a.2).sum_eq).symm
  have hfit : attrsFit ((attrSet attrs).map fun (k, v) => (k, [v, "", ""])) := by
    apply attrsFit_of_limits
    · rw [List.length_map]
      exact (length_attrSet_le attrs).trans hcount
    · rw [List.map_map]
      exact List.pairwise_map.mpr (attrSet_isLastOf attrs).ascending
    · intro p hp
      obtain ⟨a, ha, rfl⟩ := List.mem_map.mp hp
      rw [attrBytes_whole]
      exact hlen a (mem_of_mem_attrSet ha)
    · rw [List.map_map]
      simpa only [Function.comp_def, attrBytes_whole, strLen] using htotal
  rw [Writer.setAttrs, if_neg (Nat.not_lt.mpr hcount), hown]
  simp only [bind, Except.bind]
  rw [hsum, if_neg (Nat.not_lt.mpr htotal)]
  exact pushAttrParts_eq hfit

/-- A set in key order is its own normal form. -/
theorem attrSet_of_ascending {set : List (UInt8 × String)}
    (h : set.Pairwise fun a b => a.1 < b.1) : attrSet set = set := by
  have hperm : (attrSet set).Perm set := by
    refine (attrSet_perm set).trans ?_
    have hne : set.reverse.Pairwise fun a b => a.1 ≠ b.1 :=
      List.pairwise_reverse.mpr (h.imp fun hab => (UInt8.ne_of_lt hab).symm)
    have hfirst : firstBy Prod.fst set.reverse = set.reverse := by
      generalize set.reverse = l at hne
      induction l with
      | nil => rfl
      | cons a l ih =>
        obtain ⟨ha, hl⟩ := List.pairwise_cons.mp hne
        rw [firstBy, ih hl, List.filter_eq_self.mpr]
        intro b hb
        simpa using (ha b hb).symm
    rw [hfirst]
    exact List.reverse_perm set
  refine @List.Perm.eq_of_pairwise _ (fun a b => a.1 < b.1) _ _ ?_ (attrSet_isLastOf set).ascending h
    hperm
  intro a b _ _ hab hba
  exact absurd (UInt8.lt_trans hab hba) (UInt8.lt_irrefl _)

/-! ## `set_named_attrs` -/

/-- The last value of each name, in the byte order of the names. -/
def namedSet (attrs : List (String × String)) : List (String × String) :=
  Writer.sortNamed (firstBy Prod.fst attrs.reverse)

/-- Length of a named record. -/
def recordLen (a : String × String) : Nat := strLen a.1 + 1 + strLen a.2

/-- A name that can be read back, with a value that fits beside it. -/
def NamedFits (a : String × String) : Prop :=
  strLen a.1 ≠ 0 ∧ strLen a.1 ≤ Writer.maxAttrName ∧ '\x00' ∉ a.1.toList ∧ recordLen a ≤ maxAttrLen

/-- What is asked of a list of named attributes. -/
def NamedLimits (attrs : List (String × String)) : Prop :=
  attrs.length ≤ maxAttrs ∧ (∀ a ∈ attrs, NamedFits a) ∧
    ((namedSet attrs).map recordLen).sum ≤ maxAttrBytes

theorem namedSet_perm (attrs : List (String × String)) :
    (namedSet attrs).Perm (firstBy Prod.fst attrs.reverse) :=
  List.perm_insertionSort _ _

theorem mem_of_mem_namedSet {attrs : List (String × String)} {a : String × String}
    (h : a ∈ namedSet attrs) : a ∈ attrs := by
  have hmem := (firstBy_sublist _).subset ((namedSet_perm attrs).subset h)
  simpa using hmem

theorem length_namedSet_le (attrs : List (String × String)) :
    (namedSet attrs).length ≤ attrs.length := by
  have hle := (firstBy_sublist (f := Prod.fst) attrs.reverse).length_le
  rw [List.length_reverse] at hle
  rw [(namedSet_perm attrs).length_eq]
  exact hle

/-- The records a named set is stored as. -/
def namedRecords (set : List (String × String)) : List (UInt8 × String) :=
  (Writer.namedParts set).map fun a => (a.1, attrValue a)

theorem namedRecords_eq (set : List (String × String)) :
    namedRecords set = set.zipIdx.map fun p => (UInt8.ofNat p.2, p.1.1 ++ ("\x00" ++ p.1.2)) := by
  simp [namedRecords, Writer.namedParts, attrValue, List.map_map, Function.comp_def]

/-- Records are numbered in order. -/
theorem namedRecords_ascending {set : List (String × String)} (h : set.length ≤ maxAttrs) :
    (namedRecords set).Pairwise fun a b => a.1 < b.1 := by
  have hmax : maxAttrs = 64 := rfl
  rw [namedRecords_eq, List.pairwise_map, List.pairwise_iff_getElem]
  intro i j hi hj hij
  simp only [List.length_zipIdx] at hi hj
  simp only [List.getElem_zipIdx, Nat.zero_add]
  rw [UInt8.lt_iff_toNat_lt, UInt8.toNat_ofNat', UInt8.toNat_ofNat']
  omega

theorem strLen_record (name value : String) :
    strLen (name ++ ("\x00" ++ value)) = strLen name + 1 + strLen value := by
  have hnul : (strBytes "\x00").length = 1 := by decide
  simp only [strLen, strBytes_append, List.length_append, hnul]
  omega

/-- The check of a named attribute. -/
def checkNamed (debug : String → String) (a : String × String) : Except Error Unit :=
  if strLen a.1 = 0 ∨ Writer.maxAttrName < strLen a.1 ∨ '\x00' ∈ a.1.toList then
    .error (.format "attribute name must be 1..=255 bytes without NUL")
  else if maxAttrLen < recordLen a then
    .error (.format ("attribute " ++ debug a.1 ++ " exceeds 262144 bytes"))
  else .ok ()

theorem checkNamed_ok {debug : String → String} {a : String × String} :
    checkNamed debug a = .ok () ↔ NamedFits a := by
  unfold checkNamed NamedFits
  split_ifs with hname hlen
  · simp only [false_iff]
    rintro ⟨h0, h1, h2, -⟩
    rcases hname with h | h | h
    · exact h0 h
    · omega
    · exact h2 h
  · simp only [false_iff]
    rintro ⟨-, -, -, h⟩
    omega
  · push Not at hname
    simp only [true_iff]
    exact ⟨hname.1, hname.2.1, hname.2.2, by omega⟩

theorem ownNamed_eq_ownLast (debug : String → String) (as named : List (String × String)) :
    Writer.ownNamed debug as named = Writer.ownLast Prod.fst (checkNamed debug) as named := by
  induction as generalizing named with
  | nil => rfl
  | cons a rest ih =>
    rw [Writer.ownNamed, Writer.ownLast]
    by_cases hname : strLen a.1 = 0 ∨ Writer.maxAttrName < strLen a.1 ∨ '\x00' ∈ a.1.toList
    · rw [if_pos hname, checkNamed, if_pos hname]
      rfl
    · by_cases hlen : maxAttrLen < strLen a.1 + 1 + strLen a.2
      · have hcheck : checkNamed debug a
            = .error (.format ("attribute " ++ debug a.1 ++ " exceeds 262144 bytes")) := by
          rw [checkNamed, if_neg hname, recordLen, if_pos hlen]
        rw [if_neg hname, if_pos hlen, hcheck]
        rfl
      · have hcheck : checkNamed debug a = .ok () := by
          rw [checkNamed, if_neg hname, recordLen, if_neg hlen]
        rw [if_neg hname, if_neg hlen, hcheck, ih, ih]
        rfl

/-- What the pass over the names accepts and keeps. -/
theorem ownNamed_ok {debug : String → String} {attrs named : List (String × String)} :
    Writer.ownNamed debug attrs.reverse [] = .ok named ↔
      (∀ a ∈ attrs, NamedFits a) ∧ named = firstBy Prod.fst attrs.reverse := by
  rw [ownNamed_eq_ownLast, Writer.ownLast_ok]
  simp [checkNamed_ok]

section named
variable {debug : String → String} {attrs : List (String × String)}

theorem namedRecords_limits (h : NamedLimits attrs) : AttrLimits (namedRecords (namedSet attrs)) := by
  obtain ⟨hcount, hfits, htotal⟩ := h
  have hlen : (namedSet attrs).length ≤ maxAttrs := (length_namedSet_le attrs).trans hcount
  have hset : attrSet (namedRecords (namedSet attrs)) = namedRecords (namedSet attrs) :=
    attrSet_of_ascending (namedRecords_ascending hlen)
  have hlens : (namedRecords (namedSet attrs)).map (fun a => strLen a.2)
      = (namedSet attrs).map recordLen := by
    rw [namedRecords_eq, List.map_map]
    have hone : ((fun a : UInt8 × String => strLen a.2) ∘
        fun p : (String × String) × Nat => (UInt8.ofNat p.2, p.1.1 ++ ("\x00" ++ p.1.2)))
        = recordLen ∘ Prod.fst := by
      funext p
      exact strLen_record p.1.1 p.1.2
    rw [hone, ← List.map_map, List.zipIdx_map_fst]
  refine ⟨by simpa [namedRecords_eq] using hlen, ?_, by rw [hset, hlens]; exact htotal⟩
  intro r hr
  have hmem : strLen r.2 ∈ (namedSet attrs).map recordLen := by
    rw [← hlens]
    exact List.mem_map_of_mem hr
  obtain ⟨a, ha, hlena⟩ := List.mem_map.mp hmem
  rw [← hlena]
  exact (hfits a (mem_of_mem_namedSet ha)).2.2.2

/-- Records in parts and in one part make the same op. -/
theorem attrsBody_namedParts (set : List (String × String)) :
    attrsBody (Writer.namedParts set)
      = attrsBody ((namedRecords set).map fun (k, v) => (k, [v, "", ""])) := by
  have hbytes : ∀ a : AttrParts, attrBytes (a.1, [attrValue a, "", ""]) = attrBytes a := by
    intro a
    rw [attrBytes_whole, strBytes_attrValue]
  unfold attrsBody
  simp only [namedRecords, List.map_map, List.length_map, List.flatMap_map, Function.comp_def,
    hbytes, attrEntryBytes]
  rfl

/-- Accepted for its limits only, and what is staged is what `set_attrs` stages
    for the records. -/
theorem setNamedAttrs_eq (b : RecordBuf) (k : UrlKey) (h : NamedLimits attrs) :
    Writer.setNamedAttrs debug b k attrs
      = Writer.setAttrs b k (namedRecords (namedSet attrs)) := by
  have hlimits := namedRecords_limits h
  obtain ⟨hcount, hfits, htotal⟩ := h
  have hlen : (namedSet attrs).length ≤ maxAttrs := (length_namedSet_le attrs).trans hcount
  have hset : attrSet (namedRecords (namedSet attrs)) = namedRecords (namedSet attrs) :=
    attrSet_of_ascending (namedRecords_ascending hlen)
  have hown := (@ownNamed_ok debug attrs _).mpr ⟨hfits, rfl⟩
  have hfit : attrsFit (Writer.namedParts (namedSet attrs)) := by
    apply attrsFit_of_limits
    · simpa [Writer.namedParts] using hlen
    · have hasc := namedRecords_ascending hlen
      rw [namedRecords, List.pairwise_map] at hasc
      exact List.pairwise_map.mpr hasc
    · intro p hp
      rw [← strBytes_attrValue]
      exact hlimits.2.1 (p.1, attrValue p) (List.mem_map_of_mem hp)
    · have hsum := hlimits.2.2
      rw [hset, namedRecords, List.map_map] at hsum
      simpa [Function.comp_def, strLen, strBytes_attrValue] using hsum
  rw [setAttrs_eq b k hlimits, hset, ← attrsBody_namedParts, ← pushAttrParts_eq hfit,
    Writer.setNamedAttrs, if_neg (Nat.not_lt.mpr hcount), hown]
  exact if_neg (Nat.not_lt.mpr htotal)

end named

/-! ## The set, staged and read -/

/-- A call on the attributes of a key. -/
inductive AttrCall where
  | setAttrs (attrs : List (UInt8 × String))
  | setNamedAttrs (attrs : List (String × String))

namespace AttrCall

/-- The call on the writer's record. -/
def stage (debug : String → String) (b : RecordBuf) (k : UrlKey) : AttrCall → Except Error RecordBuf
  | .setAttrs attrs => Writer.setAttrs b k attrs
  | .setNamedAttrs attrs => Writer.setNamedAttrs debug b k attrs

/-- The writer's record after the call, accepted or refused. -/
def left (debug : String → String) (b : RecordBuf) (k : UrlKey) (call : AttrCall) : RecordBuf :=
  ((call.stage debug b k).toOption).getD b

/-- What the call asks of its list. -/
def Limits : AttrCall → Prop
  | .setAttrs attrs => AttrLimits attrs
  | .setNamedAttrs attrs => NamedLimits attrs

/-- The records the call stages. -/
def records : AttrCall → List (UInt8 × String)
  | .setAttrs attrs => attrs
  | .setNamedAttrs attrs => namedRecords (namedSet attrs)

variable {debug : String → String}

theorem stage_eq {b : RecordBuf} {k : UrlKey} {call : AttrCall} (h : call.Limits) :
    call.stage debug b k = Writer.setAttrs b k call.records := by
  cases call with
  | setAttrs attrs => rfl
  | setNamedAttrs attrs => exact setNamedAttrs_eq b k h

end AttrCall

section calls
variable {c : Chronicle}

end calls

end GraphR
