import GraphR.Format.Wal.Sealed

/-! # Op layouts

    For each of the seven op kinds: the bytes a push appends are one valid op,
    and every accessor gives the pushed field back. The layouts are followed
    byte range by byte range; a set of entries (segments, edges, attributes)
    is followed by induction on the entries left, the ones already read kept
    as a list `done`. -/

namespace GraphR.Wal

open ByteLib

/-! ## One op -/

/-- The bytes of one finished op. -/
def opBytes (kind oflags : UInt8) (key : UrlKey) (body : Bytes) : Bytes :=
  putU32 (UInt32.ofNat (16 + body.length)) ++ ([kind, oflags, 0, 0] ++ (putU64 key ++ body))

section opBytes
variable (kind oflags : UInt8) (key : UrlKey) (body : Bytes)

@[simp] theorem length_opBytes : (opBytes kind oflags key body).length = 16 + body.length := by
  simp [opBytes]
  omega

theorem u32At_opBytes (h : 16 + body.length ≤ maxOp) :
    (u32At (opBytes kind oflags key body) 0).toNat = 16 + body.length := by
  have hm : maxOp = 1048782 := rfl
  simp [opBytes]
  omega

@[simp] theorem byteAt_opBytes_kind : byteAt (opBytes kind oflags key body) 4 = kind := by
  simp [opBytes, byteAt_append_right]

@[simp] theorem byteAt_opBytes_oflags : byteAt (opBytes kind oflags key body) 5 = oflags := by
  simp [opBytes, byteAt_append_right]

theorem u16At_opBytes_reserved : u16At (opBytes kind oflags key body) 6 = 0 := by
  simp [opBytes, u16At_append_right]
  rfl

@[simp] theorem u64At_opBytes_key : u64At (opBytes kind oflags key body) 8 = key := by
  simp [opBytes, u64At_append_right]

theorem getU64_opBytes_key : getU64 (opBytes kind oflags key body) 8 = some key := by
  rw [getU64_of_inBounds (by simp), u64At_opBytes_key]

variable {kind oflags key body}

/-- Past the op header, an op is its body. -/
theorem range_opBytes {off n : Nat} (h : 16 ≤ off) :
    range (opBytes kind oflags key body) off n = range body (off - 16) n := by
  have hsplit : opBytes kind oflags key body
      = (putU32 (UInt32.ofNat (16 + body.length)) ++ ([kind, oflags, 0, 0] ++ putU64 key)) ++ body := by
    simp [opBytes]
  rw [hsplit, range_append_right (by simpa using h)]
  simp

theorem byteAt_opBytes {i : Nat} (h : 16 ≤ i) :
    byteAt (opBytes kind oflags key body) i = byteAt body (i - 16) := by
  have hsplit : opBytes kind oflags key body
      = (putU32 (UInt32.ofNat (16 + body.length)) ++ ([kind, oflags, 0, 0] ++ putU64 key)) ++ body := by
    simp [opBytes]
  rw [hsplit, byteAt_append_right (by simpa using h)]
  simp

theorem u16At_opBytes {off : Nat} (h : 16 ≤ off) :
    u16At (opBytes kind oflags key body) off = u16At body (off - 16) :=
  u16At_congr (range_opBytes h)

theorem u32At_opBytes_body {off : Nat} (h : 16 ≤ off) :
    u32At (opBytes kind oflags key body) off = u32At body (off - 16) :=
  u32At_congr (range_opBytes h)

theorem u64At_opBytes {off : Nat} (h : 16 ≤ off) :
    u64At (opBytes kind oflags key body) off = u64At body (off - 16) :=
  u64At_congr (range_opBytes h)

/-- An op within the cap whose kind's rules hold is valid. -/
theorem validOp_opBytes (hlen : (opBytes kind oflags key body).length ≤ maxOp)
    (hflags : oflags &&& ~~~(if kind = opPin then 1 else 0) = 0)
    (hkind : checkKind (opBytes kind oflags key body) = .ok ())
    (htrusted : (OpView.trusted (opBytes kind oflags key body)).isSome) :
    ValidOp (opBytes kind oflags key body) := by
  rw [length_opBytes] at hlen
  obtain ⟨v, hv⟩ := Option.isSome_iff_exists.mp htrusted
  unfold ValidOp validateOp
  rw [if_neg, if_neg (by simp [u16At_opBytes_reserved]), if_neg (by simpa using hflags)]
  · simp [hkind, hv, bind, Except.bind, Except.isOk, Except.toBool]
  · rw [u32At_opBytes _ _ _ _ hlen, length_opBytes]
    unfold opHeaderLen
    omega

end opBytes

theorem isUtf8_strBytes (s : String) : isUtf8 (strBytes s) = true := by
  simp [isUtf8, fromUtf8_strBytes]

theorem utf8_strBytes (s : String) (what : String) : utf8 (strBytes s) what = .ok () := by
  simp [utf8, isUtf8_strBytes]

/-- A string within the label cap has its length in 16 bits. -/
theorem toNat_len16 {s : String} (h : strLen s ≤ maxLabel) : (len16 s).toNat = strLen s := by
  have hl : maxLabel = 2048 := rfl
  simp [len16]
  omega

/-! ## Remove and pin -/

theorem validOp_remove (key : UrlKey) : ValidOp (opBytes opRemove 0 key []) := by
  apply validOp_opBytes
  · rw [length_opBytes]; decide
  · decide
  · simp [checkKind, opUpsert, opSegs, opEdges, opTouch, opRemove, opPin, opHeaderLen]
  · simp [OpView.trusted, opUpsert, opSegs, opEdges, opTouch, opRemove, opHeaderLen]

theorem trusted_remove (key : UrlKey) :
    OpView.trusted (opBytes opRemove 0 key []) = some (.remove key) := by
  simp [OpView.trusted, opUpsert, opSegs, opEdges, opTouch, opRemove, opHeaderLen]

theorem validOp_pin (key : UrlKey) (pinned : Bool) :
    ValidOp (opBytes opPin (if pinned then 1 else 0) key []) := by
  apply validOp_opBytes
  · rw [length_opBytes]; decide
  · cases pinned <;> decide
  · simp [checkKind, opUpsert, opSegs, opEdges, opTouch, opRemove, opPin, opHeaderLen]
  · simp [OpView.trusted, opUpsert, opSegs, opEdges, opTouch, opRemove, opPin, opHeaderLen]

theorem trusted_pin (key : UrlKey) (pinned : Bool) :
    OpView.trusted (opBytes opPin (if pinned then 1 else 0) key []) = some (.pin key pinned) := by
  cases pinned <;>
    simp [OpView.trusted, opUpsert, opSegs, opEdges, opTouch, opRemove, opPin, opHeaderLen]

/-! ## Presence bits

    Upserts and touches pack three booleans into the bits 1, 2 and 4. -/

def flagBits (a b c : Bool) : UInt8 :=
  (if a then 1 else 0) ||| ((if b then 2 else 0) ||| (if c then 4 else 0))

theorem flagBits_spec : ∀ a b c : Bool,
    (flagBits a b c &&& 1 = 0 ↔ a = false) ∧ (flagBits a b c &&& 2 = 0 ↔ b = false) ∧
    (flagBits a b c &&& 4 = 0 ↔ c = false) ∧ flagBits a b c &&& ~~~(1 ||| 2 ||| 4) = 0 := by
  decide

/-! ## Touch -/

section touch
variable (key : UrlKey) (t : TouchRecord)

def touchOp : Bytes := opBytes opTouch 0 key (touchBody t)

theorem length_touchOp : (touchOp key t).length = touchFixed + strLen (t.etag.getD "") := by
  simp [touchOp, touchBody, touchFixed, opHeaderLen, strLen]
  omega

/-- The hash and etag bits say whether the field is there, the tombstone bit
    is the tombstone, and no other bit is set. -/
theorem touchBits_spec :
    (touchBits t &&& tHash = 0 ↔ t.contentHash = none) ∧
    (touchBits t &&& tEtag = 0 ↔ t.etag = none) ∧
    (touchBits t &&& tTombstone != 0) = t.tombstone ∧
    touchBits t &&& ~~~(tHash ||| tEtag ||| tTombstone) = 0 := by
  obtain ⟨h1, h2, h3, h4⟩ := flagBits_spec t.contentHash.isSome t.etag.isSome t.tombstone
  rw [Option.isSome_eq_false_iff, Option.isNone_iff_eq_none] at h1 h2
  change (touchBits t &&& tTombstone = 0 ↔ _) at h3
  refine ⟨h1, h2, ?_, h4⟩
  cases ht : t.tombstone with
  | false => simpa using h3.mpr ht
  | true =>
    have hne : ¬(touchBits t &&& tTombstone = 0) := fun h0 => by simp [h3.mp h0] at ht
    simpa using hne

theorem byteAt_touchOp_bits : byteAt (touchOp key t) 49 = touchBits t := by
  simp [touchOp, byteAt_opBytes, touchBody, byteAt_append_right]

theorem u16At_touchOp_etag (h : strLen (t.etag.getD "") ≤ maxLabel) :
    (u16At (touchOp key t) 50).toNat = strLen (t.etag.getD "") := by
  simp [touchOp, u16At_opBytes, touchBody, u16At_append_right, toNat_len16 h]

theorem drop_touchOp : (touchOp key t).drop touchFixed = strBytes (t.etag.getD "") := by
  have hl : (touchOp key t).length - touchFixed = strLen (t.etag.getD "") := by
    rw [length_touchOp]; omega
  have hr : range (touchOp key t) touchFixed (strLen (t.etag.getD ""))
      = strBytes (t.etag.getD "") := by
    rw [touchOp, range_opBytes (by decide)]
    simp [touchBody, touchFixed, opHeaderLen, range_append_right, range_zero_self, strLen]
  rw [← hr, range, ← hl, ← List.length_drop, List.take_length]

theorem validOp_touch (h : strLen (t.etag.getD "") ≤ maxLabel) : ValidOp (touchOp key t) := by
  have hm : maxOp = 1048782 := rfl
  have hl : maxLabel = 2048 := rfl
  obtain ⟨hhash, hetag, -, hknown⟩ := touchBits_spec t
  have hbits := byteAt_touchOp_bits key t
  have hlen := u16At_touchOp_etag key t h
  have hzero : zeros (range (touchOp key t) 52 4) = true := by
    rw [touchOp, range_opBytes (by omega)]
    simp [touchBody, range_append_right]
    rfl
  have hhash0 : t.contentHash = none → u64At (touchOp key t) 24 = 0 := by
    intro hn
    simp [touchOp, u64At_opBytes, touchBody, u64At_append_right, hn]
  have hetag0 : t.etag = none → strLen (t.etag.getD "") = 0 := by
    intro hn
    simp [hn, strLen]
  have hsize := length_touchOp key t
  have hcheck : checkTouch (touchOp key t) = .ok () := by
    rw [checkTouch, if_neg (by omega)]
    simp only [hbits, hlen]
    rw [if_neg, drop_touchOp, utf8_strBytes]
    rintro (hb | hb | ⟨hb, hb'⟩ | ⟨hb, hb'⟩ | hb | hb)
    · exact hb hknown
    · exact hb hzero
    · exact hb' (hhash0 (hhash.mp hb))
    · exact hb' (hetag0 (hetag.mp hb))
    · omega
    · omega
  apply validOp_opBytes
  · rw [← touchOp, hsize]
    unfold touchFixed opHeaderLen
    omega
  · decide
  · simp [checkKind, opUpsert, opSegs, opEdges, opTouch]
    exact hcheck
  · simp [OpView.trusted, opUpsert, opSegs, opEdges, opTouch, opHeaderLen]

theorem trusted_touch : OpView.trusted (touchOp key t) = some (.touch (touchOp key t)) := by
  simp [touchOp, OpView.trusted, opUpsert, opSegs, opEdges, opTouch, opHeaderLen]

theorem read_touch (h : strLen (t.etag.getD "") ≤ maxLabel) :
    OpView.read (.touch (touchOp key t)) = some (.touch key t) := by
  obtain ⟨hhash, hetag, htomb, -⟩ := touchBits_spec t
  have hsize := length_touchOp key t
  have hfix : touchFixed = 56 := rfl
  have hbits : getByte (touchOp key t) 49 = some (touchBits t) := by
    rw [getByte_of_lt (by omega), byteAt_touchOp_bits]
  have hkey : TouchView.key (touchOp key t) = some key := getU64_opBytes_key _ _ _ _
  have hchecked : TouchView.checkedAtMs (touchOp key t) = some t.checkedAtMs := by
    rw [TouchView.checkedAtMs, getU64_of_inBounds (by omega)]
    simp [touchOp, u64At_opBytes, touchBody]
  have hchash : TouchView.contentHash (touchOp key t) = some t.contentHash := by
    rw [TouchView.contentHash, hbits]
    cases hc : t.contentHash with
    | none => simp [hhash.mpr hc]
    | some v =>
      have hne : touchBits t &&& tHash ≠ 0 := fun h0 => by simp [hhash.mp h0] at hc
      rw [getU64_of_inBounds (by omega)]
      simp [hne, touchOp, u64At_opBytes, touchBody, u64At_append_right, hc]
  have hlast : TouchView.lastChangeMs (touchOp key t) = some t.lastChangeMs := by
    rw [TouchView.lastChangeMs, getU64_of_inBounds (by omega)]
    simp [touchOp, u64At_opBytes, touchBody, u64At_append_right]
  have hivl : TouchView.intervalS (touchOp key t) = some t.intervalS := by
    rw [TouchView.intervalS, getU32_of_inBounds (by omega)]
    simp [touchOp, u32At_opBytes_body, touchBody, u32At_append_right]
  have hchecks : TouchView.checks (touchOp key t) = some t.checks := by
    rw [TouchView.checks, getU16_of_inBounds (by omega)]
    simp [touchOp, u16At_opBytes, touchBody, u16At_append_right]
  have hchanges : TouchView.changes (touchOp key t) = some t.changes := by
    rw [TouchView.changes, getU16_of_inBounds (by omega)]
    simp [touchOp, u16At_opBytes, touchBody, u16At_append_right]
  have hout : TouchView.outcome (touchOp key t) = some t.outcome := by
    rw [TouchView.outcome, getByte_of_lt (by omega)]
    simp [touchOp, byteAt_opBytes, touchBody, byteAt_append_right]
  have htombstone : TouchView.tombstone (touchOp key t) = some t.tombstone := by
    rw [TouchView.tombstone, hbits, Option.map_some, htomb]
  have hetagv : TouchView.etag (touchOp key t) = some t.etag := by
    rw [TouchView.etag, hbits]
    cases he : t.etag with
    | none => simp [hetag.mpr he]
    | some s =>
      have hne : touchBits t &&& tEtag ≠ 0 := fun h0 => by simp [hetag.mp h0] at he
      have htext : text (touchOp key t) touchFixed (strLen s) = some s := by
        have hd := drop_touchOp key t
        rw [he, Option.getD_some] at hd hsize
        rw [text_of_inBounds (by omega), range, hd, strLen, List.take_length, fromUtf8_strBytes]
      have hlen := u16At_touchOp_etag key t h
      rw [getU16_of_inBounds (by omega)]
      simp only [Option.bind_eq_bind, Option.bind_some, if_neg hne, hlen, he, Option.getD_some,
        htext, Option.map_some]
  simp [OpView.read, TouchView.read, hkey, hchecked, hchash, hlast, hivl, hchecks, hchanges, hout,
    htombstone, hetagv]

end touch

/-! ## Upsert -/

section upsert
variable (doc : DocRecord) (flags : UInt16)

def upsertOp : Bytes := opBytes opUpsert 0 doc.urlKey (upsertBody doc flags)

/-- The four strings of an upsert, the absent ones empty. -/
def docStrings : List String :=
  [doc.url, doc.title.getD "", doc.snippet.getD "", doc.etag.getD ""]

/-- What the accessors of an upsert give back. -/
def DocRecord.toUpsert (doc : DocRecord) (flags : UInt16) : Upsert :=
  { key := doc.urlKey, contentHash := doc.contentHash, fetchedAtMs := doc.fetchedAtMs, flags,
    url := doc.url, title := doc.title, snippet := doc.snippet, etag := doc.etag }

/-- An absent string takes no bytes, so the run of strings is the same whether
    it is skipped or written empty. -/
theorem flatMap_docStrings :
    strBytes doc.url ++ (optStrings doc).flatMap strBytes = (docStrings doc).flatMap strBytes := by
  rcases doc with ⟨url, key, hash, at_, title, snippet, etag, pinned⟩
  cases title <;> cases snippet <;> cases etag <;> simp [optStrings, docStrings]

/-- The four string lengths as the op carries them. -/
theorem optLen16_eq (s : Option String) : optLen16 s = len16 (s.getD "") := by
  cases s with
  | none => simp [optLen16, len16, strLen]
  | some s => rfl

theorem presentBits_spec :
    (presentBits doc &&& hasTitle = 0 ↔ doc.title = none) ∧
    (presentBits doc &&& hasSnippet = 0 ↔ doc.snippet = none) ∧
    (presentBits doc &&& hasEtag = 0 ↔ doc.etag = none) ∧
    presentBits doc &&& ~~~(hasTitle ||| hasSnippet ||| hasEtag) = 0 := by
  obtain ⟨h1, h2, h3, h4⟩ :=
    flagBits_spec doc.title.isSome doc.snippet.isSome doc.etag.isSome
  rw [Option.isSome_eq_false_iff, Option.isNone_iff_eq_none] at h1 h2 h3
  exact ⟨h1, h2, h3, h4⟩

/-! ### A run of strings -/

/-- The run of strings `ss` after `pre` passes the UTF-8 pass. -/
theorem checkStrings_flatMap (pre : Bytes) (ss : List String) :
    checkStrings (pre ++ ss.flatMap strBytes) pre.length (ss.map strLen) = .ok () := by
  induction ss generalizing pre with
  | nil => rfl
  | cons s ss ih =>
    have hrange : range (pre ++ (s :: ss).flatMap strBytes) pre.length (strLen s) = strBytes s := by
      rw [range_append_right le_rfl, Nat.sub_self, List.flatMap_cons, strLen, range_zero_append rfl]
    have hrest := ih (pre ++ strBytes s)
    rw [List.length_append, List.append_assoc] at hrest
    rw [List.map_cons, checkStrings, hrange, utf8_strBytes]
    exact hrest

/-- String `i` of a run lies after the lengths of the strings before it. -/
theorem text_flatMap (pre : Bytes) (ss : List String) (i : Nat) (hi : i < ss.length) :
    text (pre ++ ss.flatMap strBytes) (pre.length + ((ss.take i).map strLen).sum)
      (strLen ss[i]) = some ss[i] := by
  induction ss generalizing pre i with
  | nil => simp at hi
  | cons s ss ih =>
    cases i with
    | zero =>
      rw [text_of_inBounds (by simp [strLen]), range_append_right (by simp)]
      simp only [List.take_zero, List.map_nil, List.sum_nil, Nat.add_zero, Nat.sub_self,
        List.flatMap_cons, List.getElem_cons_zero]
      rw [strLen, range_zero_append rfl, fromUtf8_strBytes]
    | succ i =>
      have h := ih (pre ++ strBytes s) i (by simpa using hi)
      rw [List.append_assoc, List.length_append] at h
      simpa [strLen, Nat.add_assoc] using h

/-! ### The op -/

/-- What an upsert starts with: everything before the strings. -/
def upsertHead : Bytes :=
  putU32 (UInt32.ofNat (16 + (upsertBody doc flags).length)) ++ ([opUpsert, 0, 0, 0] ++
    (putU64 doc.urlKey ++ (putU64 doc.contentHash ++ (putU64 doc.fetchedAtMs ++ (putU16 flags ++
      ([presentBits doc, 0] ++ (putU16 (len16 doc.url) ++ (putU16 (optLen16 doc.title) ++
        (putU16 (optLen16 doc.snippet) ++ (putU16 (optLen16 doc.etag) ++ putU32 0))))))))))

theorem length_upsertHead : (upsertHead doc flags).length = upsertFixed := by
  simp [upsertHead, upsertFixed, opHeaderLen]

theorem upsertOp_eq :
    upsertOp doc flags = upsertHead doc flags ++ (docStrings doc).flatMap strBytes := by
  rw [← flatMap_docStrings]
  simp [upsertOp, opBytes, upsertBody, upsertHead]

theorem length_upsertOp :
    (upsertOp doc flags).length = upsertFixed + ((docStrings doc).map strLen).sum := by
  rw [upsertOp_eq, List.length_append, length_upsertHead, List.length_flatMap]
  rfl

/-- The strings of a document are within the caps `push_upsert` checks. -/
def DocRecord.fits (doc : DocRecord) : Prop :=
  0 < strLen doc.url ∧ ∀ s ∈ docStrings doc, strLen s ≤ maxLabel

theorem u16At_upsertOp (h : doc.fits) (i : Nat) (hi : i < 4) :
    (u16At (upsertOp doc flags) (36 + 2 * i)).toNat = strLen ((docStrings doc).getD i "") := by
  have hcap : ∀ s ∈ docStrings doc, (len16 s).toNat = strLen s := fun s hs => toNat_len16 (h.2 s hs)
  simp only [docStrings, List.mem_cons, forall_eq_or_imp, List.not_mem_nil] at hcap
  obtain ⟨h0, h1, h2, h3, -⟩ := hcap
  interval_cases i <;>
    simp [upsertOp, u16At_opBytes, upsertBody, u16At_append_right, docStrings, optLen16_eq, *]

theorem lens_upsertOp (h : doc.fits) :
    ([36, 38, 40, 42].map fun pos => (u16At (upsertOp doc flags) pos).toNat)
      = (docStrings doc).map strLen := by
  have h0 := u16At_upsertOp doc flags h 0 (by omega)
  have h1 := u16At_upsertOp doc flags h 1 (by omega)
  have h2 := u16At_upsertOp doc flags h 2 (by omega)
  have h3 := u16At_upsertOp doc flags h 3 (by omega)
  simp only [docStrings] at h0 h1 h2 h3
  simp [docStrings, h0, h1, h2, h3]

theorem byteAt_upsertOp_present : byteAt (upsertOp doc flags) 34 = presentBits doc := by
  simp [upsertOp, byteAt_opBytes, upsertBody, byteAt_append_right]

theorem checkUpsert_upsertOp (h : doc.fits) : checkUpsert (upsertOp doc flags) = .ok () := by
  obtain ⟨htitle, hsnippet, hetag, hknown⟩ := presentBits_spec doc
  have hsize := length_upsertOp doc flags
  have hzero : zeros (range (upsertOp doc flags) 44 4) = true := by
    rw [upsertOp, range_opBytes (by omega)]
    simp [upsertBody, range_append_right]
    rfl
  have hpad : byteAt (upsertOp doc flags) 35 = 0 := by
    simp [upsertOp, byteAt_opBytes, upsertBody, byteAt_append_right]
  have h0 := u16At_upsertOp doc flags h 0 (by omega)
  have h1 := u16At_upsertOp doc flags h 1 (by omega)
  have h2 := u16At_upsertOp doc flags h 2 (by omega)
  have h3 := u16At_upsertOp doc flags h 3 (by omega)
  have hurl := h.1
  simp only [docStrings, List.getD_cons_zero, List.getD_cons_succ, Nat.reduceMul,
    Nat.reduceAdd] at h0 h1 h2 h3
  have hstrings := checkStrings_flatMap (upsertHead doc flags) (docStrings doc)
  rw [← upsertOp_eq, length_upsertHead] at hstrings
  rw [checkUpsert, if_neg (by omega)]
  simp only [lens_upsertOp doc flags h, byteAt_upsertOp_present]
  rw [if_neg, if_neg, if_neg, if_neg (by omega), hstrings]
  · rintro (⟨hb, hlen⟩ | ⟨hb, hlen⟩ | ⟨hb, hlen⟩)
    · simp [h1, htitle.mp hb, strLen] at hlen
    · simp [h2, hsnippet.mp hb, strLen] at hlen
    · simp [h3, hetag.mp hb, strLen] at hlen
  · rintro (hb | hb)
    · omega
    · simp only [List.any_map, List.any_eq_true, Function.comp, decide_eq_true_eq] at hb
      obtain ⟨s, hs, hlt⟩ := hb
      exact absurd (h.2 s hs) (by omega)
  · rintro (hb | hb | hb)
    · exact hb hknown
    · exact hb hpad
    · exact hb hzero

theorem validOp_upsert (h : doc.fits) : ValidOp (upsertOp doc flags) := by
  have hcheck := checkUpsert_upsertOp doc flags h
  apply validOp_opBytes
  · have hcap : ((docStrings doc).map strLen).sum ≤ (docStrings doc).length * 2048 := by
      rw [← List.length_map strLen]
      apply List.sum_le_card_nsmul
      intro n hn
      obtain ⟨s, hs, rfl⟩ := List.mem_map.mp hn
      exact h.2 s hs
    rw [← upsertOp, length_upsertOp]
    simp only [docStrings, List.length_cons, List.length_nil] at hcap ⊢
    unfold upsertFixed opHeaderLen
    have hm : maxOp = 1048782 := rfl
    omega
  · decide
  · simp [checkKind]
    exact hcheck
  · simp [OpView.trusted, opHeaderLen]

theorem trusted_upsert : OpView.trusted (upsertOp doc flags) = some (.upsert (upsertOp doc flags)) := by
  simp [upsertOp, OpView.trusted, opHeaderLen]

/-- String `i` of an upsert is found after the ones before it. -/
theorem text_upsertOp (i : Nat) (hi : i < 4) :
    text (upsertOp doc flags) (upsertFixed + (((docStrings doc).take i).map strLen).sum)
      (strLen ((docStrings doc).getD i "")) = some ((docStrings doc).getD i "") := by
  have hlen : i < (docStrings doc).length := by simpa [docStrings] using hi
  have h := text_flatMap (upsertHead doc flags) (docStrings doc) i hlen
  rw [← upsertOp_eq, length_upsertHead] at h
  rwa [List.getD_eq_getElem?_getD, List.getElem?_eq_getElem hlen, Option.getD_some]

theorem lenAt_upsertOp (h : doc.fits) (i : Nat) (hi : i < 4) :
    UpsertView.lenAt (upsertOp doc flags) i = some (strLen ((docStrings doc).getD i "")) := by
  have hsize := length_upsertOp doc flags
  have hfix : upsertFixed = 48 := rfl
  rw [UpsertView.lenAt, getU16_of_inBounds (by omega), Option.map_some,
    u16At_upsertOp doc flags h i hi]

theorem lensBefore_upsertOp (h : doc.fits) (i : Nat) (hi : i ≤ 4) :
    UpsertView.lensBefore (upsertOp doc flags) i
      = some (((docStrings doc).take i).map strLen).sum := by
  induction i with
  | zero => rfl
  | succ i ih =>
    have hlt : i < (docStrings doc).length := by simpa [docStrings] using hi
    rw [UpsertView.lensBefore, ih (by omega), lenAt_upsertOp doc flags h i (by omega),
      List.take_add_one, List.getD_eq_getElem?_getD, List.getElem?_eq_getElem hlt]
    simp only [Option.bind_eq_bind, Option.bind_some, Option.getD_some, Option.toList_some,
      List.map_append, List.map_cons, List.map_nil, List.sum_append, List.sum_singleton]

/-- String `i` reads back as present exactly when its bit is set. -/
theorem field_upsertOp (h : doc.fits) (i : Nat) (hi : i < 4) (bit : UInt8) :
    UpsertView.field (upsertOp doc flags) i bit
      = some (if 0 < i ∧ presentBits doc &&& bit = 0 then none
          else some ((docStrings doc).getD i "")) := by
  have hsize := length_upsertOp doc flags
  have hfix : upsertFixed = 48 := rfl
  rw [UpsertView.field, getByte_of_lt (by omega), byteAt_upsertOp_present]
  simp only [Option.bind_eq_bind, Option.bind_some, lensBefore_upsertOp doc flags h i (by omega),
    lenAt_upsertOp doc flags h i hi, text_upsertOp doc flags i hi]
  split_ifs <;> rfl

theorem read_upsert (h : doc.fits) :
    OpView.read (.upsert (upsertOp doc flags)) = some (.upsert (doc.toUpsert flags)) := by
  obtain ⟨htitle, hsnippet, hetag, -⟩ := presentBits_spec doc
  have hsize := length_upsertOp doc flags
  have hfix : upsertFixed = 48 := rfl
  have hopt : ∀ (i : Nat) (s : Option String) (bit : UInt8),
      (presentBits doc &&& bit = 0 ↔ s = none) →
      (if 0 < i + 1 ∧ presentBits doc &&& bit = 0 then none else some (s.getD "")) = s := by
    intro i s bit hs
    cases s with
    | none => simp [hs]
    | some s => simp [hs]
  have hkey : UpsertView.key (upsertOp doc flags) = some doc.urlKey := getU64_opBytes_key _ _ _ _
  have hhash : UpsertView.contentHash (upsertOp doc flags) = some doc.contentHash := by
    rw [UpsertView.contentHash, getU64_of_inBounds (by omega)]
    simp [upsertOp, u64At_opBytes, upsertBody]
  have hat : UpsertView.fetchedAtMs (upsertOp doc flags) = some doc.fetchedAtMs := by
    rw [UpsertView.fetchedAtMs, getU64_of_inBounds (by omega)]
    simp [upsertOp, u64At_opBytes, upsertBody, u64At_append_right]
  have hflags : UpsertView.flags (upsertOp doc flags) = some flags := by
    rw [UpsertView.flags, getU16_of_inBounds (by omega)]
    simp [upsertOp, u16At_opBytes, upsertBody, u16At_append_right]
  have hurl : UpsertView.url (upsertOp doc flags) = some doc.url := by
    rw [UpsertView.url, field_upsertOp doc flags h 0 (by omega)]
    simp [docStrings]
  have ht : UpsertView.title (upsertOp doc flags) = some doc.title := by
    rw [UpsertView.title, field_upsertOp doc flags h 1 (by omega)]
    exact congrArg some (hopt 0 doc.title hasTitle htitle)
  have hs : UpsertView.snippet (upsertOp doc flags) = some doc.snippet := by
    rw [UpsertView.snippet, field_upsertOp doc flags h 2 (by omega)]
    exact congrArg some (hopt 1 doc.snippet hasSnippet hsnippet)
  have he : UpsertView.etag (upsertOp doc flags) = some doc.etag := by
    rw [UpsertView.etag, field_upsertOp doc flags h 3 (by omega)]
    exact congrArg some (hopt 2 doc.etag hasEtag hetag)
  simp [OpView.read, UpsertView.read, hkey, hhash, hat, hflags, hurl, ht, hs, he,
    DocRecord.toUpsert]

end upsert

end GraphR.Wal
