import GraphR.Format.Wal.Cut
import GraphR.Library.Faults

/-! # Validated ops are safe to read

    `validate_op` accepts an op only if every accessor of its view stays in
    bounds and finds UTF-8 where it expects text: no accessor of a validated op
    faults (`ValidOp.reads`). The records `next_record` returns hold validated
    ops only, so neither does any op of a log that was scanned. -/

namespace GraphR.Wal

open ByteLib

/-! ## Reads in bounds -/

section reads
variable {op : Bytes}

theorem utf8_ok {bs : Bytes} {what : String} {u : Unit} (h : utf8 bs what = .ok u) :
    (fromUtf8 bs).isSome := by
  unfold utf8 isUtf8 at h
  split_ifs at h with hu
  exact hu

theorem text_isSome {pos len : Nat} (hin : pos + len ≤ op.length)
    (hu : (fromUtf8 (range op pos len)).isSome) : (text op pos len).isSome := by
  rw [text_of_inBounds hin]
  exact hu

/-- One string of a run: what is checked of the first and of the rest. -/
theorem checkStrings_cons {pos len : Nat} {rest : List Nat} {u : Unit}
    (h : checkStrings op pos (len :: rest) = .ok u) :
    (fromUtf8 (range op pos len)).isSome ∧ checkStrings op (pos + len) rest = .ok () := by
  simp only [checkStrings] at h
  cases hu : utf8 (range op pos len) "upsert" with
  | error e => simp [hu, bind, Except.bind] at h
  | ok v =>
    simp only [hu, bind, Except.bind] at h
    exact ⟨utf8_ok hu, h⟩

theorem upsert_isSome {u : Unit} (h : checkUpsert op = .ok u) : (UpsertView.read op).isSome := by
  unfold checkUpsert at h
  simp only at h
  split_ifs at h with hlen hbits hlens habsent hsum
  have hfix : upsertFixed = 48 := rfl
  simp only [List.map_cons, List.map_nil, List.sum_cons, List.sum_nil, Nat.add_zero] at h hsum
  obtain ⟨hurl, h⟩ := checkStrings_cons h
  obtain ⟨htitle, h⟩ := checkStrings_cons h
  obtain ⟨hsnippet, h⟩ := checkStrings_cons h
  obtain ⟨hetag, -⟩ := checkStrings_cons h
  have hlenAt : ∀ i, i < 4 → UpsertView.lenAt op i = some (u16At op (36 + 2 * i)).toNat := by
    intro i hi
    rw [UpsertView.lenAt, getU16_of_inBounds (by omega)]
    rfl
  have hfield : ∀ i bit, i < 4 →
      (∀ before, UpsertView.lensBefore op i = some before →
        (text op (upsertFixed + before) (u16At op (36 + 2 * i)).toNat).isSome) →
      (∃ before, UpsertView.lensBefore op i = some before) →
      (UpsertView.field op i bit).isSome := by
    rintro i bit hi htext ⟨before, hbefore⟩
    obtain ⟨s, hs⟩ := Option.isSome_iff_exists.mp (htext before hbefore)
    unfold UpsertView.field
    rw [getByte_of_lt (by omega)]
    simp only [Option.bind_eq_bind, Option.bind_some, hbefore, hlenAt i hi, hs]
    split_ifs <;> rfl
  have hb0 : UpsertView.lensBefore op 0 = some 0 := rfl
  have hb1 : UpsertView.lensBefore op 1 = some (u16At op 36).toNat := by
    simp [UpsertView.lensBefore, hlenAt 0 (by omega)]
  have hb2 : UpsertView.lensBefore op 2 = some ((u16At op 36).toNat + (u16At op 38).toNat) := by
    rw [UpsertView.lensBefore, hb1, hlenAt 1 (by omega)]
    rfl
  have hb3 : UpsertView.lensBefore op 3
      = some ((u16At op 36).toNat + (u16At op 38).toNat + (u16At op 40).toNat) := by
    rw [UpsertView.lensBefore, hb2, hlenAt 2 (by omega)]
    rfl
  obtain ⟨url, hurl⟩ := Option.isSome_iff_exists.mp (hfield 0 0 (by omega)
    (by
      intro b hb
      rw [hb0] at hb
      cases hb
      exact text_isSome (show upsertFixed + (u16At op 36).toNat ≤ op.length by omega) hurl) ⟨_, hb0⟩)
  obtain ⟨title, htitle⟩ := Option.isSome_iff_exists.mp (hfield 1 hasTitle (by omega)
    (by
      intro b hb
      rw [hb1] at hb
      cases hb
      exact text_isSome
        (show upsertFixed + (u16At op 36).toNat + (u16At op 38).toNat ≤ op.length by omega) htitle) ⟨_, hb1⟩)
  obtain ⟨snippet, hsnippet⟩ := Option.isSome_iff_exists.mp (hfield 2 hasSnippet (by omega)
    (by
      intro b hb
      rw [hb2] at hb
      cases hb
      rw [← Nat.add_assoc]
      exact text_isSome (show upsertFixed + (u16At op 36).toNat + (u16At op 38).toNat
        + (u16At op 40).toNat ≤ op.length by omega) hsnippet) ⟨_, hb2⟩)
  obtain ⟨etag, hetag⟩ := Option.isSome_iff_exists.mp (hfield 3 hasEtag (by omega)
    (by
      intro b hb
      rw [hb3] at hb
      cases hb
      rw [← Nat.add_assoc, ← Nat.add_assoc]
      exact text_isSome (show upsertFixed + (u16At op 36).toNat + (u16At op 38).toNat
        + (u16At op 40).toNat + (u16At op 42).toNat ≤ op.length by omega) hetag) ⟨_, hb3⟩)
  simp [UpsertView.read, UpsertView.key, UpsertView.contentHash, UpsertView.fetchedAtMs,
    UpsertView.flags, UpsertView.url, UpsertView.title, UpsertView.snippet, UpsertView.etag,
    getU64_of_inBounds (show 8 + 8 ≤ op.length by omega),
    getU64_of_inBounds (show 16 + 8 ≤ op.length by omega),
    getU64_of_inBounds (show 24 + 8 ≤ op.length by omega),
    getU16_of_inBounds (show 32 + 2 ≤ op.length by omega), hurl, htitle, hsnippet, hetag]

/-- The walk over segment entries follows the checked one. -/
theorem segsWalk_isSome {k i pos stop : Nat} (hpos : pos ≤ op.length)
    (hentries : segsFixed + (i + k) * segEntry ≤ op.length)
    (h : checkSegEntries op k i pos = .ok stop) : (SegsView.walk op k i pos).isSome := by
  induction k generalizing i pos with
  | zero => rfl
  | succ k ih =>
    have hfix : segsFixed = 24 := rfl
    have hent : segEntry = 16 := rfl
    unfold checkSegEntries at h
    simp only at h
    split_ifs at h with hbad
    push Not at hbad
    cases hu : utf8 (range op pos (u16At op (segsFixed + i * segEntry + 10)).toNat)
        "segment label" with
    | error e => simp [hu, bind, Except.bind] at h
    | ok v =>
      simp only [hu, bind, Except.bind] at h
      have hin : segsFixed + i * segEntry + 16 ≤ op.length := by
        simp only [hfix, hent] at hentries ⊢
        omega
      obtain ⟨s, hs⟩ := Option.isSome_iff_exists.mp
        (text_isSome (by omega) (utf8_ok hu))
      obtain ⟨rest, hrest⟩ := Option.isSome_iff_exists.mp (ih (by omega) (by
        rw [Nat.add_right_comm, Nat.add_assoc]; exact hentries) h)
      unfold SegsView.walk
      simp only [getU16_of_inBounds (show segsFixed + i * segEntry + 10 + 2 ≤ op.length by omega),
        getU16_of_inBounds (show segsFixed + i * segEntry + 8 + 2 ≤ op.length by omega),
        getU32_of_inBounds (show segsFixed + i * segEntry + 4 ≤ op.length by omega),
        getU32_of_inBounds (show segsFixed + i * segEntry + 4 + 4 ≤ op.length by omega),
        getByte_of_lt (show segsFixed + i * segEntry + 12 < op.length by omega),
        getByte_of_lt (show segsFixed + i * segEntry + 13 < op.length by omega),
        Option.bind_eq_bind, Option.bind_some, hs, hrest]
      rfl

theorem segs_isSome {u : Unit} (h : checkSegs op = .ok u) : (OpView.segs op).read.isSome := by
  have hfix : segsFixed = 24 := rfl
  unfold checkSegs at h
  simp only at h
  split_ifs at h with hbad hlen
  push Not at hbad
  cases hw : checkSegEntries op (byteAt op 16).toNat 0
      (segsFixed + (byteAt op 16).toNat * segEntry) with
  | error e => simp [hw, bind, Except.bind] at h
  | ok stop =>
    obtain ⟨vs, hvs⟩ := Option.isSome_iff_exists.mp (segsWalk_isSome (by omega)
      (by rw [Nat.zero_add]; omega) hw)
    simp [OpView.read, SegsView.key, SegsView.iter, SegsView.len,
      getU64_of_inBounds (show 8 + 8 ≤ op.length by omega),
      getByte_of_lt (show 16 < op.length by omega), hvs]

theorem edges_isSome {u : Unit} (h : checkEdges op = .ok u) : (OpView.edges op).read.isSome := by
  have hfix : edgesFixed = 24 := rfl
  have hent : edgeEntry = 12 := rfl
  unfold checkEdges at h
  simp only at h
  split_ifs at h with hbad hcount
  push Not at hbad hcount
  have hall : ((List.range (edgeCount (op.drop edgesFixed))).mapM
      (edgeAt (op.drop edgesFixed))).isSome := by
    apply FaultLib.mapM_isSome
    intro i hi
    have hlt : i < (op.drop edgesFixed).length / edgeEntry := List.mem_range.mp hi
    have hin : i * edgeEntry + 12 ≤ (op.drop edgesFixed).length := by
      have := (Nat.le_div_iff_mul_le (by decide)).mp hlt
      rw [hent] at *
      omega
    simp [edgeAt, getU64_of_inBounds (show i * edgeEntry + 8 ≤ (op.drop edgesFixed).length by omega),
      getByte_of_lt (show i * edgeEntry + 8 < (op.drop edgesFixed).length by omega),
      getByte_of_lt (show i * edgeEntry + 9 < (op.drop edgesFixed).length by omega),
      getU16_of_inBounds (show i * edgeEntry + 10 + 2 ≤ (op.drop edgesFixed).length by omega)]
  obtain ⟨es, hes⟩ := Option.isSome_iff_exists.mp hall
  simp [OpView.read, EdgesView.key, EdgesView.iter, EdgesView.entries, hbad.1,
    getU64_of_inBounds (show 8 + 8 ≤ op.length by omega), hes]

theorem touch_isSome {u : Unit} (h : checkTouch op = .ok u) : (OpView.touch op).read.isSome := by
  have hfix : touchFixed = 56 := rfl
  unfold checkTouch at h
  simp only at h
  split_ifs at h with hlen hbad
  push Not at hbad
  obtain ⟨-, -, -, -, -, hsize⟩ := hbad
  have htext : (text op touchFixed (u16At op 50).toNat).isSome := by
    refine text_isSome (by omega) ?_
    have hrange : range op touchFixed (u16At op 50).toNat = op.drop touchFixed := by
      rw [range, List.take_of_length_le (by rw [List.length_drop]; omega)]
    rw [hrange]
    exact utf8_ok h
  obtain ⟨s, hs⟩ := Option.isSome_iff_exists.mp htext
  have hbits : getByte op 49 = some (byteAt op 49) := getByte_of_lt (by omega)
  have hhash : (TouchView.contentHash op).isSome := by
    unfold TouchView.contentHash
    rw [hbits, getU64_of_inBounds (by omega)]
    simp only [Option.bind_eq_bind, Option.bind_some]
    split_ifs <;> rfl
  have hetag : (TouchView.etag op).isSome := by
    unfold TouchView.etag
    rw [hbits, getU16_of_inBounds (by omega)]
    simp only [Option.bind_eq_bind, Option.bind_some, hs]
    split_ifs <;> rfl
  obtain ⟨hash, hhash⟩ := Option.isSome_iff_exists.mp hhash
  obtain ⟨etag, hetag⟩ := Option.isSome_iff_exists.mp hetag
  simp [OpView.read, TouchView.key, TouchView.read, TouchView.checkedAtMs, TouchView.outcome,
    TouchView.intervalS, TouchView.checks, TouchView.changes, TouchView.lastChangeMs,
    TouchView.tombstone, hhash, hetag, hbits,
    getU64_of_inBounds (show 8 + 8 ≤ op.length by omega),
    getU64_of_inBounds (show 16 + 8 ≤ op.length by omega),
    getU64_of_inBounds (show 32 + 8 ≤ op.length by omega),
    getU32_of_inBounds (show 40 + 4 ≤ op.length by omega),
    getU16_of_inBounds (show 44 + 2 ≤ op.length by omega),
    getU16_of_inBounds (show 46 + 2 ≤ op.length by omega),
    getByte_of_lt (show 48 < op.length by omega)]

/-- The walk over attribute entries follows the checked one. -/
theorem attrsWalk_isSome {k i pos stop : Nat} {prev : Option UInt8} (hpos : pos ≤ op.length)
    (hentries : attrsFixed + (i + k) * attrEntry ≤ op.length)
    (h : checkAttrEntries op k i prev pos = .ok stop) : (AttrsView.walk op k i pos).isSome := by
  induction k generalizing i pos prev with
  | zero => rfl
  | succ k ih =>
    have hfix : attrsFixed = 24 := rfl
    have hent : attrEntry = 8 := rfl
    unfold checkAttrEntries at h
    simp only at h
    split_ifs at h with hbad
    push Not at hbad
    cases hu : utf8 (range op pos (u32At op (attrsFixed + i * attrEntry + 4)).toNat)
        "attribute" with
    | error e => simp [hu, bind, Except.bind] at h
    | ok v =>
      simp only [hu, bind, Except.bind] at h
      have hin : attrsFixed + i * attrEntry + 8 ≤ op.length := by
        simp only [hfix, hent] at hentries ⊢
        omega
      obtain ⟨s, hs⟩ := Option.isSome_iff_exists.mp
        (text_isSome (by omega) (utf8_ok hu))
      obtain ⟨rest, hrest⟩ := Option.isSome_iff_exists.mp (ih (by omega) (by
        rw [Nat.add_right_comm, Nat.add_assoc]; exact hentries) h)
      unfold AttrsView.walk
      simp only [getU32_of_inBounds (show attrsFixed + i * attrEntry + 4 + 4 ≤ op.length by omega),
        getByte_of_lt (show attrsFixed + i * attrEntry < op.length by omega),
        Option.bind_eq_bind, Option.bind_some, hs, hrest]
      rfl

theorem attrs_isSome {u : Unit} (h : checkAttrs op = .ok u) : (OpView.attrs op).read.isSome := by
  have hfix : attrsFixed = 24 := rfl
  unfold checkAttrs at h
  simp only at h
  split_ifs at h with hbad hlen
  push Not at hbad
  cases hw : checkAttrEntries op (byteAt op 16).toNat 0 none
      (attrsFixed + (byteAt op 16).toNat * attrEntry) with
  | error e => simp [hw, bind, Except.bind] at h
  | ok stop =>
    obtain ⟨vs, hvs⟩ := Option.isSome_iff_exists.mp (attrsWalk_isSome (by omega)
      (by rw [Nat.zero_add]; omega) hw)
    simp [OpView.read, AttrsView.key, AttrsView.iter, AttrsView.len,
      getU64_of_inBounds (show 8 + 8 ≤ op.length by omega),
      getByte_of_lt (show 16 < op.length by omega), hvs]

end reads

/-! ## Ops, records, logs -/

/-- No accessor of a validated op faults. -/
theorem ValidOp.reads {c : Bytes} (h : ValidOp c) :
    ∃ v, OpView.trusted c = some v ∧ v.read.isSome := by
  obtain ⟨v, hv, htrusted⟩ := h.validateOp_eq
  refine ⟨v, htrusted, ?_⟩
  have hlen : ¬c.length < opHeaderLen := by have := h.length_ge; simp [opHeaderLen]; omega
  have hkind : checkKind c = .ok () := by
    unfold validateOp at hv
    cases hk : checkKind c with
    | error e => simp only [hk, bind, Except.bind] at hv; split_ifs at hv
    | ok u => rfl
  unfold OpView.trusted at htrusted
  rw [if_neg hlen] at htrusted
  unfold checkKind at hkind
  simp only at htrusted hkind
  split_ifs at htrusted with hup hsegs hedges htouch hrem hpin hattrs
  · rw [if_pos hup] at hkind
    cases htrusted
    simpa [OpView.read] using upsert_isSome hkind
  · rw [if_neg hup, if_pos hsegs] at hkind
    cases htrusted
    exact segs_isSome hkind
  · rw [if_neg hup, if_neg hsegs, if_pos hedges] at hkind
    cases htrusted
    exact edges_isSome hkind
  · rw [if_neg hup, if_neg hsegs, if_neg hedges, if_pos htouch] at hkind
    cases htrusted
    exact touch_isSome hkind
  · cases htrusted
    rfl
  · cases htrusted
    rfl
  · rw [if_neg hup, if_neg hsegs, if_neg hedges, if_neg htouch, if_neg (by simp [hrem, hpin]),
      if_pos hattrs] at hkind
    cases htrusted
    exact attrs_isSome hkind

/-- The ops `next_record` checked are the ones the trusted walk gives. -/
theorem opWalk_of_checkOps {rec : Bytes} {pos count k i at_ stop fuel : Nat}
    (h : checkOps rec pos count k i at_ = .ok stop) (hat : at_ ≤ rec.length) (hstop : stop = rec.length) (hfuel : rec.length ≤ at_ + fuel) :
    ∀ p ∈ opWalk rec fuel at_, ValidOp p.2 := by
  induction k generalizing i at_ fuel with
  | zero =>
    -- nothing left
    simp only [checkOps, Except.ok.injEq] at h
    cases fuel with
    | zero => simp [opWalk]
    | succ fuel =>
      have hshort : rec.length - at_ < opHeaderLen := by simp [opHeaderLen]; omega
      rw [opWalk, if_neg (by omega), if_pos hshort]
      simp
  | succ k ih =>
    unfold checkOps at h
    simp only at h
    split_ifs at h with hshort hlen
    push Not at hlen
    cases hv : validateOp (range rec at_ (u32At rec at_).toNat) with
    | error e => simp [hv] at h
    | ok v =>
      simp only [hv] at h
      have hhead : opHeaderLen = 16 := rfl
      cases fuel with
      | zero => omega
      | succ fuel =>
        rw [opWalk, if_neg (by omega), if_neg hshort]
        simp only
        rw [if_pos ⟨hlen.2.2, hlen.1⟩]
        intro p hp
        rcases List.mem_cons.mp hp with rfl | hp
        · show (validateOp (range rec at_ (u32At rec at_).toNat)).isOk = true
          rw [hv]
          rfl
        · exact ih h (by omega) (by omega) p hp

section log
variable {xxh3 : Bytes → UInt64} {bytes : Bytes}

/-- A record that `next_record` returned passed the record's own rules. -/
theorem checkRecord_of_nextRecord {pos : Nat} {r : Record}
    (h : nextRecord xxh3 bytes pos = .ok (.record r)) : checkRecord r.bytes pos = .ok () := by
  unfold nextRecord readRecord at h
  split_ifs at h with hpos hshort hhead hsum
  · cases h
  · cases h
  · cases h
  · cases hc : checkRecord ((bytes.drop pos).take (u32At (bytes.drop pos) 0).toNat) pos with
    | error e => simp [hc, bind, Except.bind] at h
    | ok u =>
      simp only [hc, bind, Except.bind, Except.ok.injEq, Next.record.injEq] at h
      subst h
      exact hc
  · cases h

/-- Every op of a record that `next_record` returned reads without a fault. -/
theorem reads_of_nextRecord {pos : Nat} {r : Record}
    (h : nextRecord xxh3 bytes pos = .ok (.record r)) : ∀ p ∈ r.ops, p.2.2.read.isSome := by
  have hcheck := checkRecord_of_nextRecord h
  unfold checkRecord at hcheck
  split_ifs at hcheck with hres hseq
  cases hops : checkOps r.bytes pos (u32At r.bytes 16).toNat (u32At r.bytes 16).toNat 0
      recordHeaderLen with
  | error e => simp [hops, bind, Except.bind] at hcheck
  | ok stop =>
    simp only [hops, bind, Except.bind] at hcheck
    split_ifs at hcheck with hstop
    push Not at hstop
    have hmin : 48 ≤ r.bytes.length := r.minLen
    have hhead : recordHeaderLen = 32 := rfl
    have hvalid : ∀ p ∈ opWalk r.bytes r.bytes.length recordHeaderLen, ValidOp p.2 :=
      opWalk_of_checkOps hops (by omega) hstop (by omega)
    intro p hp
    obtain ⟨q, hq, hview⟩ := List.mem_filterMap.mp hp
    obtain ⟨z, hz, rfl⟩ := List.mem_map.mp hq
    obtain ⟨v, hv, hread⟩ := (hvalid z.1 (List.of_mem_zip hz).1).reads
    simp only [hv, Option.map_some, Option.some.injEq] at hview
    subst hview
    exact hread

/-- Every op of a validated run reads without a fault. -/
theorem Validated.reads {pos stop : Nat} {after : Option Nat} {rs : List Record}
    (h : Validated xxh3 bytes pos after rs stop) :
    ∀ r ∈ rs, ∀ p ∈ r.ops, p.2.2.read.isSome := by
  induction h with
  | torn h => simp
  | step h hseq hrest ih =>
    intro r hr
    rcases List.mem_cons.mp hr with rfl | hr
    · exact reads_of_nextRecord h
    · exact ih r hr

end log

end GraphR.Wal
