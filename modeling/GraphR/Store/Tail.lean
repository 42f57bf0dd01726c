import GraphR.Format.Wal.Tail
import GraphR.Store.Open

/-! # Catching up through the tail

    A handle that has consumed a log up to a record boundary reads the bytes behind
    it and publishes what it has not seen. What it then serves is what a fresh open
    serves, as long as the numbers rise across the boundary; where they fall back the
    fresh open refuses the log and the handle drops the ops. -/

namespace GraphR.Opening

open Wal ByteLib BaseFile Multi

section runs
variable {xxh3 : Bytes → UInt64} {bytes : Bytes}

/-! ## Numbers of a run -/

/-- An op's number lies in its record's range. -/
theorem seq_of_ops {r : Record} {p : Nat × Nat × OpView} (h : p ∈ r.ops) :
    r.firstSeq ≤ p.1 ∧ p.1 ≤ r.lastSeq := by
  obtain ⟨q, hq, hp⟩ := List.mem_filterMap.mp h
  obtain ⟨v, -, rfl⟩ := Option.map_eq_some_iff.mp hp
  obtain ⟨z, hz, rfl⟩ := List.mem_map.mp hq
  have hlt := List.mem_range.mp (List.of_mem_zip hz).2
  simp only [Record.lastSeq]
  omega

theorem firstSeq_le_lastSeq {pos : Nat} {r : Record}
    (h : nextRecord xxh3 bytes pos = .ok (.record r)) : r.firstSeq ≤ r.lastSeq := by
  have hcheck := checkRecord_of_nextRecord h
  unfold checkRecord at hcheck
  split_ifs at hcheck with hres hseq
  push Not at hseq
  have hcount : (u32At r.bytes 16).toNat ≠ 0 := by
    intro hz
    exact hseq.2.1 (UInt32.toNat_inj.mp hz)
  simp only [Record.lastSeq, Record.opCount]
  omega

/-- Every record of a run is numbered above what came before it. -/
theorem firstSeq_of_validated {pos stop : Nat} {after : Option Nat} {rs : List Record}
    (h : Validated xxh3 bytes pos after rs stop) :
    ∀ r ∈ rs, ∀ l ∈ after, l < r.firstSeq := by
  induction h with
  | torn h => simp
  | @step pos stop after r rs h hseq hrest ih =>
    intro r' hr' l hl
    rcases List.mem_cons.mp hr' with rfl | hr'
    · exact hseq l hl
    · have hlast := ih r' hr' r.lastSeq rfl
      have hfirst := firstSeq_le_lastSeq h
      have := hseq l hl
      omega

/-- The numbers of a walked run end with its last record's. -/
theorem lastSeq_of_whole {pos b : Nat} {after : Option Nat} {rs : List Record}
    (h : Whole xxh3 bytes pos after rs b) :
    ∀ r ∈ rs, ∀ l ∈ rs.getLast?.map Record.lastSeq, r.lastSeq ≤ l := by
  induction h with
  | nil => simp
  | @cons pos b after r rs h hseq hrest ih =>
    intro r' hr' l hl
    cases hrest with
    | nil =>
      simp only [List.getLast?_singleton, Option.map_some, Option.mem_def, Option.some.injEq,
        List.mem_singleton] at hl hr'
      subst hr'
      exact hl.le
    | @cons _ _ _ r₂ rs h₂ hseq₂ hrest₂ =>
      rw [List.getLast?_cons_cons] at hl
      rcases List.mem_cons.mp hr' with rfl | hr'
      · have hle := ih r₂ (by simp) l hl
        have hlt := hseq₂ r'.lastSeq rfl
        have hfirst := firstSeq_le_lastSeq h₂
        omega
      · exact ih r' hr' l hl

/-! ## A run in two parts -/

/-- A walked run is the front of the validated one. -/
theorem validated_split {pos b stop : Nat} {after : Option Nat} {rs all : List Record}
    (h : Whole xxh3 bytes pos after rs b) (hv : Validated xxh3 bytes pos after all stop) :
    ∃ rest, all = rs ++ rest ∧ Validated xxh3 bytes b (Validated.lastSeq after rs) rest stop := by
  induction h generalizing all with
  | nil => exact ⟨all, rfl, hv⟩
  | cons h hseq hrest ih =>
    cases hv with
    | torn h' => rw [h] at h'; cases h'
    | step h' hseq' hrest' =>
      rw [h] at h'
      cases h'
      obtain ⟨rest, rfl, hv⟩ := ih hrest'
      exact ⟨rest, rfl, hv⟩

/-- Behind `b` lie the same records, whichever image they are read from. -/
theorem bytes_of_validated_drop {b : Nat} (hb : b ≤ bytes.length) {pos stop stop' : Nat}
    {after after' : Option Nat} {rs rs' : List Record}
    (h : Validated xxh3 (bytes.drop b) pos after rs stop)
    (h' : Validated xxh3 bytes (b + pos) after' rs' stop') :
    rs.map Record.bytes = rs'.map Record.bytes := by
  induction h generalizing after' rs' with
  | @torn pos after h =>
    have hsame := nextRecord_drop xxh3 bytes hb pos
    rw [h] at hsame
    cases h' with
    | torn _ => rfl
    | step h₂ _ _ => rw [h₂] at hsame; cases hsame
  | @step pos stop after r rs h hseq hrest ih =>
    have hsame := nextRecord_drop xxh3 bytes hb pos
    rw [h] at hsame
    cases h' with
    | torn h₂ => rw [h₂] at hsame; cases hsame
    | @step _ _ _ r' rs' h₂ hseq₂ hrest₂ =>
      rw [h₂] at hsame
      cases hsame with
      | record hbytes =>
        have hlen : r'.len = r.len := by rw [Record.len, Record.len, hbytes]
        rw [hlen, Nat.add_assoc] at hrest₂
        rw [List.map_cons, List.map_cons, hbytes, ih hrest₂]

/-! ## The ops of a run -/

theorem opsAbove_append (a : Nat) (rs rest : List Record) :
    opsAbove a (rs ++ rest) = opsAbove a rs ++ opsAbove a rest := by
  simp [opsAbove]

/-- Where a record lies makes no difference to its ops. -/
theorem opsAbove_congr (a : Nat) {rs rs' : List Record}
    (h : rs.map Record.bytes = rs'.map Record.bytes) : opsAbove a rs = opsAbove a rs' := by
  have hops : ∀ r : Record, r.ops.map (fun p => (p.1, p.2.2))
      = ((opWalk r.bytes r.bytes.length recordHeaderLen).zip
          (List.range (u32At r.bytes 16).toNat)).filterMap fun p =>
            (OpView.trusted p.1.2).map fun v => ((u64At r.bytes 8).toNat + p.2, v) := by
    intro r
    simp only [Record.ops, Record.rawOps, List.filterMap_map, List.map_filterMap]
    refine List.filterMap_congr ?_
    intro p _
    simp only [Function.comp_apply, Option.map_map]
    rfl
  have hflat : ∀ rs : List Record, (rs.flatMap fun r => r.ops.map fun p => (p.1, p.2.2))
      = (rs.map Record.bytes).flatMap fun bs =>
          ((opWalk bs bs.length recordHeaderLen).zip (List.range (u32At bs 16).toNat)).filterMap
            fun p => (OpView.trusted p.1.2).map fun v => ((u64At bs 8).toNat + p.2, v) := by
    intro rs
    rw [List.flatMap_map]
    exact List.flatMap_congr fun r _ => hops r
  rw [opsAbove, opsAbove, hflat, hflat, h]

/-- Ops of records numbered above everything published are above what is served
    exactly when they are above what the base folded. -/
theorem opsAbove_served {a : Nat} {rs rest : List Record} {last : Option Nat}
    (hlast : ∀ r ∈ rs, ∀ l ∈ last, r.lastSeq ≤ l) (hsome : rs ≠ [] → last.isSome)
    (hrest : ∀ r ∈ rest, ∀ l ∈ last, l < r.firstSeq) :
    opsAbove (max a (((opsAbove a rs).getLast?.map Prod.fst).getD 0)) rest = opsAbove a rest := by
  unfold opsAbove
  refine List.filter_congr ?_
  intro p hp
  obtain ⟨r, hr, hp⟩ := List.mem_flatMap.mp hp
  obtain ⟨q, hq, rfl⟩ := List.mem_map.mp hp
  have hseq := (seq_of_ops hq).1
  cases hlastop : (opsAbove a rs).getLast? with
  | none =>
    unfold opsAbove at hlastop
    rw [hlastop]
    simp
  | some o =>
    have ho := List.mem_of_getLast? hlastop
    obtain ⟨ho, -⟩ := List.mem_filter.mp ho
    obtain ⟨r₀, hr₀, ho⟩ := List.mem_flatMap.mp ho
    obtain ⟨q₀, hq₀, rfl⟩ := List.mem_map.mp ho
    have hseq₀ := (seq_of_ops hq₀).2
    obtain ⟨l, hl⟩ := Option.isSome_iff_exists.mp (hsome (List.ne_nil_of_mem hr₀))
    have h₁ := hlast r₀ hr₀ l hl
    have h₂ := hrest r hr l hl
    unfold opsAbove at hlastop
    rw [hlastop]
    simp only [Option.map_some, Option.getD_some, decide_eq_decide]
    omega

end runs

/-! ## What a fresh open answers -/

/-- Two handles that serve the same, or two errors of one kind. -/
inductive SameOutcome : Except Error Handle → Except Error Handle → Prop where
  | serves {h h' : Handle} (hdir : h.dir = h'.dir) (hops : h.ops = h'.ops) :
      SameOutcome (.ok h) (.ok h')
  | fails {e e' : Error} (hkind : e.kind = e'.kind) : SameOutcome (.error e) (.error e')

section fresh
variable {xxh3 : Bytes → UInt64} {env : Env} {files : Files} {readOnly lockFree : Bool}

/-- The log of the base's own generation: refused, too large, or served. -/
theorem buildGeneration_own {base wal : Bytes} {dir : BaseDir}
    (hdir : BaseDir.parse xxh3 base = .ok dir)
    (hgen : parseHeader xxh3 wal = .ok dir.header.generation) :
    (∀ e, (scan xxh3 wal Wal.headerLen none).corrupt = some e →
      buildGeneration xxh3 base wal = .error e) ∧
    ∀ rs stop, Validated xxh3 wal Wal.headerLen none rs stop →
      (Full (opsAbove dir.header.walAppliedSeq.toNat rs) stop →
        ∃ m, buildGeneration xxh3 base wal = .error (.busy m)) ∧
      (¬Full (opsAbove dir.header.walAppliedSeq.toNat rs) stop →
        buildGeneration xxh3 base wal = .ok ⟨dir, opsAbove dir.header.walAppliedSeq.toNat rs,
          .current (stop < wal.length), stop⟩) := by
  have hhead := headerLen_le_of_parseHeader hgen
  have hne : ¬wal.isEmpty = true := by cases wal <;> simp_all [Wal.headerLen]
  refine ⟨?_, ?_⟩
  · intro e he
    simp [buildGeneration, hdir, hgen, hne, he, bind, Except.bind]
  · intro rs stop hrs
    refine ⟨?_, fun hroom => buildGeneration_of_loads hdir (.current hgen hrs hroom)⟩
    intro hfull
    have hlen : (wal.take stop).length = stop := by
      rw [List.length_take, Nat.min_eq_left (hrs.stop_le hhead)]
    have hrecords := records_take hrs hhead
    rw [hlen] at hrecords
    unfold Full at hfull
    refine ⟨"overlay arena full during replay", ?_⟩
    simp only [buildGeneration, hdir, hgen, hne, hrs.scan_eq, hrecords, hlen, bind, Except.bind,
      lt_irrefl, Bool.false_eq_true, if_false, if_pos hfull]

/-- A generation that cannot be built is an open that fails alike. -/
theorem openWith_of_error {e : Error}
    (h : buildGeneration xxh3 files.base.bytes files.walBytes = .error e) :
    ∃ e', (openWith xxh3 env files readOnly lockFree).1 = .error e' ∧ e'.kind = e.kind := by
  have hload : ∀ locked, loadGeneration xxh3 files locked raceRetries = .error e := by
    intro locked
    rw [raceRetries, loadGeneration, h]
    rfl
  have hfail : ∃ e', load xxh3 files readOnly lockFree = .error e' ∧ e'.kind = e.kind := by
    unfold load
    rw [hload, hload]
    cases e with
    | busy m =>
      simp only
      split_ifs
      · exact ⟨_, rfl, rfl⟩
      · exact ⟨_, rfl, rfl⟩
      · exact ⟨_, rfl, rfl⟩
    | _ => exact ⟨_, rfl, rfl⟩
  obtain ⟨e', he', hkind⟩ := hfail
  exact ⟨e', by rw [openWith, he'], hkind⟩

/-- One that can be built is served, whoever opens, torn tail or not. -/
theorem openWith_of_current {b : Built} {torn : Bool}
    (h : buildGeneration xxh3 files.base.bytes files.walBytes = .ok b)
    (hlog : b.log = .current torn) :
    ∃ h', (openWith xxh3 env files readOnly lockFree).1 = .ok h' ∧ h'.dir = b.dir ∧
      h'.ops = b.ops := by
  rw [openWith, load_ok.mpr ⟨h, by rw [hlog]; simp⟩]
  simp only
  split_ifs with hrepair
  · cases lockFree with
    | false => exact ⟨_, rfl, rfl, rfl⟩
    | true =>
      simp only [Handle.repairNow, if_true, catchUp_assemble]
      obtain ⟨hd, ho⟩ := @repair_serves xxh3 (assemble files b) env
      exact ⟨_, rfl, hd, ho⟩
  · exact ⟨_, rfl, rfl, rfl⟩

end fresh

/-! ## What the tail read answers -/

/-- The handle serves the base and the records before `b`, and has consumed the log
    up to there. -/
structure Handle.Consumed (xxh3 : Bytes → UInt64) (h : Handle) (base image : Bytes)
    (rs : List Record) (b : Nat) : Prop where
  parsed : BaseDir.parse xxh3 base = .ok h.dir
  generation : parseHeader xxh3 image = .ok h.dir.header.generation
  ops : h.ops = opsAbove h.dir.header.walAppliedSeq.toNat rs
  room : h.ops.length ≤ arenaCapacity
  consumed : h.seen.walPos = b

/-- A log no longer than an overlay segment can address, or one both reads find too
    large: the tail read takes a segment for the tail alone, a fresh open one for the
    whole log. -/
def OneSegment (xxh3 : Bytes → UInt64) (h : Handle) (image : Bytes) (b : Nat) : Prop :=
  ∀ rs stop, Validated xxh3 image Wal.headerLen none rs stop →
    stop ≤ offMask ∨ opsAbove h.dir.header.walAppliedSeq.toNat rs = [] ∨
      arenaCapacity < (opsAbove h.dir.header.walAppliedSeq.toNat rs).length ∨
      (h.ops.length < (opsAbove h.dir.header.walAppliedSeq.toNat rs).length ∧ offMask < stop - b)

/-- The arena of `h` cannot take `new`, in a segment of `len` bytes. -/
def Handle.NoRoom (h : Handle) (new : List (Nat × OpView)) (len : Nat) : Prop :=
  new ≠ [] ∧ (arenaCapacity < h.ops.length + new.length ∨ offMask < len)

section tail
variable {xxh3 : Bytes → UInt64} {h : Handle} {base image : Bytes} {rs : List Record} {b : Nat}

/-- The tail read of a log whose numbers rise: the ops of the records behind `b` are
    published, if there is room. -/
theorem readTail_of_rises (hc : h.Consumed xxh3 base image rs b)
    (hw : Whole xxh3 image Wal.headerLen none rs b) (hrise : Rises xxh3 image rs b)
    {all : List Record} {stop : Nat} (hv : Validated xxh3 image Wal.headerLen none all stop)
    (files : Files) {ident : Nat} (hfiles : files.wal = some ⟨ident, image⟩) :
    ∃ new, opsAbove h.dir.header.walAppliedSeq.toNat all = h.ops ++ new ∧
      (h.NoRoom new (stop - b) → ∃ m, h.readTail xxh3 files = .error (.busy m)) ∧
      (¬h.NoRoom new (stop - b) → ∃ h', h.readTail xxh3 files = .ok h' ∧ h'.dir = h.dir ∧
        h'.ops = h.ops ++ new) := by
  have hhead := headerLen_le_of_parseHeader hc.generation
  have hb := hw.stop_le hhead
  obtain ⟨hstop, hkind⟩ := tail_of_rises hhead hw hrise
  rw [hv.scan_eq] at hstop hkind
  have hcorrupt : (scan xxh3 (image.drop b) 0 none).corrupt = none := by
    simpa using hkind.symm
  obtain ⟨rest, rfl, hrest⟩ := validated_split hw hv
  obtain ⟨rs', hrs'⟩ := validated_of_scan hcorrupt
  have hsame := bytes_of_validated_drop hb hrs' hrest
  have hlen : ((image.drop b).take (scan xxh3 (image.drop b) 0 none).stop).length = stop - b := by
    rw [List.length_take, Nat.min_eq_left (hrs'.stop_le (by omega))]
    simp only at hstop
    omega
  -- what is above everything served is what is above the base
  have hserved : opsAbove h.servedSeq (records
      ((image.drop b).take (scan xxh3 (image.drop b) 0 none).stop) 0
      ((image.drop b).take (scan xxh3 (image.drop b) 0 none).stop).length)
        = opsAbove h.dir.header.walAppliedSeq.toNat rest := by
    rw [records_take hrs' (by omega), opsAbove_congr _ hsame, Handle.servedSeq, hc.ops]
    refine opsAbove_served (lastSeq_of_whole hw) ?_ ?_
    · intro hne
      rw [Option.isSome_map, List.getLast?_isSome]
      simpa using hne
    · rw [← Validated.lastSeq_none]
      exact firstSeq_of_validated hrest
  rw [hlen] at hserved
  refine ⟨opsAbove h.dir.header.walAppliedSeq.toNat rest, by rw [opsAbove_append, hc.ops], ?_, ?_⟩
  · intro hfull
    unfold Handle.NoRoom at hfull
    refine ⟨"overlay arena full", ?_⟩
    simp only [Handle.readTail, hfiles, hc.consumed, hcorrupt, Handle.publishNew, hlen, hserved,
      if_pos hfull, bind, Except.bind]
  · intro hroom
    unfold Handle.NoRoom at hroom
    refine ⟨{ h with
      ops := h.ops ++ opsAbove h.dir.header.walAppliedSeq.toNat rest
      seen := { h.seen with
        stamp := files.stamp, walPos := b + (scan xxh3 (image.drop b) 0 none).stop } }, ?_, rfl, rfl⟩
    simp only [Handle.readTail, hfiles, hc.consumed, hcorrupt, Handle.publishNew, hlen, hserved,
      if_neg hroom, bind, Except.bind]

/-- A log a fresh open refuses is refused by the tail read, where the numbers
    rise. -/
theorem readTail_of_corrupt (hc : h.Consumed xxh3 base image rs b)
    (hw : Whole xxh3 image Wal.headerLen none rs b) (hrise : Rises xxh3 image rs b) {e : Error}
    (he : (scan xxh3 image Wal.headerLen none).corrupt = some e) (files : Files) {ident : Nat}
    (hfiles : files.wal = some ⟨ident, image⟩) :
    ∃ e', h.readTail xxh3 files = .error e' ∧ e'.kind = e.kind := by
  obtain ⟨-, hkind⟩ := tail_of_rises (headerLen_le_of_parseHeader hc.generation) hw hrise
  rw [he, Option.map_some] at hkind
  obtain ⟨e', he', hk⟩ := Option.map_eq_some_iff.mp hkind.symm
  exact ⟨e', by simp only [Handle.readTail, hfiles, hc.consumed, he'], hk⟩

/-- Room for the tail, and room for the whole log, where a segment takes both. -/
theorem noRoom_iff_full (hc : h.Consumed xxh3 base image rs b) (hseg : OneSegment xxh3 h image b)
    {all : List Record} {stop : Nat} (hv : Validated xxh3 image Wal.headerLen none all stop)
    {new : List (Nat × OpView)}
    (hnew : opsAbove h.dir.header.walAppliedSeq.toNat all = h.ops ++ new) :
    h.NoRoom new (stop - b) ↔ Full (opsAbove h.dir.header.walAppliedSeq.toNat all) stop := by
  have hroom := hc.room
  have hseg := hseg all stop hv
  rw [hnew] at hseg ⊢
  unfold Handle.NoRoom Full
  rw [List.length_append] at hseg ⊢
  cases new with
  | nil =>
    -- nothing new: the handle's own ops fit, so only the length could fail them
    simp only [List.append_nil, List.length_nil] at hseg ⊢
    constructor
    · rintro ⟨hne, -⟩
      exact absurd rfl hne
    · rintro ⟨hne, hlarge⟩
      rcases hseg with hseg | hseg | hseg | hseg
      · omega
      · exact absurd hseg hne
      · omega
      · omega
  | cons o new =>
    have hne : h.ops ++ o :: new ≠ [] := by simp
    simp only [List.length_cons] at hseg ⊢
    constructor
    · rintro ⟨-, hlarge⟩
      exact ⟨hne, by omega⟩
    · rintro ⟨-, hlarge⟩
      refine ⟨by simp, ?_⟩
      rcases hseg with hseg | hseg | hseg | hseg
      · omega
      · exact absurd hseg hne
      · exact .inl hseg
      · exact .inr hseg.2

end tail

/-! ## Incremental and whole -/

/-- Scanning from `b` ends where the whole scan ends, with the same verdict; so the
    two measures of the log agree. -/
def TailAgrees (xxh3 : Bytes → UInt64) (image : Bytes) (b : Nat) : Prop :=
  ((scan xxh3 image Wal.headerLen none).stop = b + (scan xxh3 (image.drop b) 0 none).stop ∧
    ((scan xxh3 image Wal.headerLen none).corrupt.isSome
      ↔ (scan xxh3 (image.drop b) 0 none).corrupt.isSome)) ∧
  b + committedFramesLen xxh3 (image.drop b) = committedLen xxh3 image

/-- For every log with a valid header and every boundary of its committed prefix:
    reading from the boundary agrees with reading whole exactly where the numbers rise
    across it; and a handle that consumed the log up to there then answers as a fresh
    open does, exactly when the log also fits a segment where the tail does. -/
theorem tail_read_agrees_iff (xxh3 : Bytes → UInt64) (image : Bytes) (gen : UInt64)
    (hgen : parseHeader xxh3 image = .ok gen) (rs : List Record) (b : Nat)
    (hw : Whole xxh3 image Wal.headerLen none rs b) :
    (TailAgrees xxh3 image b ↔ Rises xxh3 image rs b) ∧
    ∀ (h : Handle) (files : Files) (ident : Nat), files.wal = some ⟨ident, image⟩ →
      h.Consumed xxh3 files.base.bytes image rs b → ∀ env readOnly lockFree,
      (TailAgrees xxh3 image b ∧
        SameOutcome (h.readTail xxh3 files) (openWith xxh3 env files readOnly lockFree).1) ↔
      (Rises xxh3 image rs b ∧ OneSegment xxh3 h image b) := by
  have hhead := headerLen_le_of_parseHeader hgen
  have hagrees : TailAgrees xxh3 image b ↔ Rises xxh3 image rs b := by
    rw [← tail_agrees_iff hhead hw, TailAgrees, committedLen_eq hgen]
    constructor
    · exact And.left
    · intro h
      exact ⟨h, h.1.symm⟩
  refine ⟨hagrees, ?_⟩
  intro h files ident hfiles hc env readOnly lockFree
  rw [hagrees, and_congr_right_iff]
  intro hrise
  have hbytes : files.walBytes = image := by rw [Files.walBytes, hfiles]; rfl
  obtain ⟨hrefused, hread⟩ := buildGeneration_own hc.parsed hc.generation
  rw [← hbytes] at hrefused hread
  cases hcorrupt : (scan xxh3 image Wal.headerLen none).corrupt with
  | some e =>
    -- both refuse the log, and the size of a refused log does not matter
    obtain ⟨e₁, htail, hkind₁⟩ := readTail_of_corrupt hc hw hrise hcorrupt files hfiles
    obtain ⟨e₂, hopen, hkind₂⟩ := @openWith_of_error xxh3 env files readOnly lockFree e
      (hrefused e (by rw [hbytes]; exact hcorrupt))
    rw [htail, hopen]
    refine ⟨fun _ all stop hv => ?_, fun _ => .fails (hkind₁.trans hkind₂.symm)⟩
    rw [hv.scan_eq] at hcorrupt
    cases hcorrupt
  | none =>
    obtain ⟨all, hv⟩ := validated_of_scan hcorrupt
    generalize hstop : (scan xxh3 image Wal.headerLen none).stop = stop at hv
    obtain ⟨new, hnew, hfull, hroom⟩ := readTail_of_rises hc hw hrise hv files hfiles
    obtain ⟨hbusy, hserve⟩ := hread all stop (by rw [hbytes]; exact hv)
    constructor
    · intro hsame all' stop' hv'
      obtain rfl : stop' = stop := by
        rw [← hstop, hv'.scan_eq]
      obtain rfl : all' = all := by
        rw [← hv'.records_eq hhead, hv.records_eq hhead]
      by_contra hseg
      push Not at hseg
      obtain ⟨hlong, hne, hfew, hsmall⟩ := hseg
      -- too long for a fresh open, while the tail fits
      obtain ⟨m, hbuild⟩ := hbusy ⟨hne, .inr hlong⟩
      obtain ⟨e, hopen, -⟩ := @openWith_of_error xxh3 env files readOnly lockFree _ hbuild
      have hno : ¬h.NoRoom new (stop' - b) := by
        rintro ⟨hnew', hlarge⟩
        have hpos := List.length_pos_iff.mpr hnew'
        rw [hnew, List.length_append] at hfew hsmall
        have := hsmall (by omega)
        omega
      obtain ⟨h', htail, -⟩ := hroom hno
      rw [htail, hopen] at hsame
      cases hsame
    · intro hseg
      by_cases hno : h.NoRoom new (stop - b)
      · obtain ⟨m, htail⟩ := hfull hno
        obtain ⟨m', hbuild⟩ := hbusy ((noRoom_iff_full hc hseg hv hnew).mp hno)
        obtain ⟨e, hopen, hkind⟩ := @openWith_of_error xxh3 env files readOnly lockFree _ hbuild
        rw [htail, hopen]
        exact .fails hkind.symm
      · obtain ⟨h', htail, hd, ho⟩ := hroom hno
        have hbuild := hserve (fun hf => hno ((noRoom_iff_full hc hseg hv hnew).mpr hf))
        obtain ⟨h'', hopen, hd', ho'⟩ := @openWith_of_current xxh3 env files readOnly lockFree _ _
          hbuild rfl
        rw [htail, hopen]
        exact .serves (hd.trans hd'.symm) (by rw [ho, ho', hnew])

/-- A log of the generation of `oneNodeBase` with two records of one op. -/
def twoRemoves (first second : UInt64) (h : first ≠ 0 ∧ second ≠ 0) : Bytes :=
  encodeHeader (fun _ => 0) 1 0 ++ ((removeRecord first 7 h.1).bytes (fun _ => 0) ++
    (removeRecord second 8 h.2).bytes fun _ => 0)

/-- The record before the boundary of such a log. -/
def firstRemove (first : UInt64) (h : first ≠ 0) : Record :=
  (removeRecord first 7 h).toRecord (fun _ => 0) Wal.headerLen

theorem whole_twoRemoves (first second : UInt64) (h : first ≠ 0 ∧ second ≠ 0) :
    Whole (fun _ => 0) (twoRemoves first second h) Wal.headerLen none [firstRemove first h.1]
      (Wal.headerLen + 48) := by
  have hlen := (parseHeader_encodeHeader (fun _ => 0) 1 0).1
  have hnext := (removeRecord first 7 h.1).nextRecord_sealed (fun _ => 0)
    (encodeHeader (fun _ => 0) 1 0) ((removeRecord second 8 h.2).bytes fun _ => 0)
  rw [hlen] at hnext
  exact .cons hnext (by simp) .nil

/-- `oneNodeBase` beside a log. -/
def besideOneNode (wal : Bytes) : Files := ⟨⟨0, oneNodeBase⟩, some ⟨1, wal⟩⟩

/-- A handle opened on the first record takes the second; a fresh open takes both. -/
theorem tail_read_agrees_twoRemoves :
    ∃ h : Handle, h.ops.length = 1 ∧
      h.Consumed (fun _ => 0) oneNodeBase (twoRemoves 1 2 (by decide))
        [firstRemove 1 (by decide)] (Wal.headerLen + 48) ∧
      SameOutcome (h.readTail (fun _ => 0) (besideOneNode (twoRemoves 1 2 (by decide))))
        (openWith (fun _ => 0) ⟨0, 9⟩ (besideOneNode (twoRemoves 1 2 (by decide))) false true).1 := by
  have hw := whole_twoRemoves 1 2 (by decide)
  have hgen : parseHeader (fun _ => 0) (twoRemoves 1 2 (by decide)) = .ok 1 := by decide +kernel
  have hparse : (BaseDir.parse (fun _ => 0) oneNodeBase).toOption.any
      (fun d => d.header.generation = 1 ∧ d.header.walAppliedSeq = 0) = true := by decide +kernel
  cases hdir : BaseDir.parse (fun _ => 0) oneNodeBase with
  | error e => simp [hdir, Except.toOption] at hparse
  | ok d =>
    have hd : d.header.generation = 1 ∧ d.header.walAppliedSeq = 0 := by
      simpa [hdir, Except.toOption] using hparse
    have hops : (opsAbove 0 [firstRemove 1 (by decide)]).length = 1 := by decide +kernel
    have happlied : d.header.walAppliedSeq.toNat = 0 := by rw [hd.2]; rfl
    have hc : Handle.Consumed (fun _ => 0)
        ⟨d, oneNodeBase, opsAbove 0 [firstRemove 1 (by decide)],
          ⟨none, Wal.headerLen + 48, true, 1⟩⟩
        oneNodeBase (twoRemoves 1 2 (by decide)) [firstRemove 1 (by decide)] (Wal.headerLen + 48) :=
      ⟨hdir, by rw [hgen, hd.1], by rw [happlied], by rw [hops]; decide, rfl⟩
    refine ⟨_, hops, hc, ?_⟩
    refine (((tail_read_agrees_iff (fun _ => 0) _ 1 hgen _ _ hw).2 _
      (besideOneNode (twoRemoves 1 2 (by decide))) 1 rfl hc ⟨0, 9⟩ false true).mpr ⟨?_, ?_⟩).2
    · refine (tail_agrees_iff (headerLen_le_of_parseHeader hgen) hw).mp ?_
      decide +kernel
    · intro rs stop hv
      refine .inl ((hv.stop_le (headerLen_le_of_parseHeader hgen)).trans ?_)
      decide +kernel

/-- Numbers that fall back at the boundary: the whole scan refuses the log there, the
    tail scan takes the record, and so do the handles. -/
theorem tail_read_takes_regression :
    parseHeader (fun _ => 0) (twoRemoves 5 4 (by decide)) = .ok 1 ∧
      Whole (fun _ => 0) (twoRemoves 5 4 (by decide)) Wal.headerLen none
        [firstRemove 5 (by decide)] (Wal.headerLen + 48) ∧
      ¬TailAgrees (fun _ => 0) (twoRemoves 5 4 (by decide)) (Wal.headerLen + 48) ∧
      ((openWith (fun _ => 0) ⟨0, 9⟩ (besideOneNode ((twoRemoves 5 4 (by decide)).take
          (Wal.headerLen + 48))) true true).1.toOption.any fun h =>
        (h.readTail (fun _ => 0) (besideOneNode (twoRemoves 5 4 (by decide)))).isOk) = true ∧
      (openWith (fun _ => 0) ⟨0, 9⟩ (besideOneNode (twoRemoves 5 4 (by decide))) true
        true).1.isOk = false := by
  refine ⟨by decide +kernel, whole_twoRemoves 5 4 (by decide), ?_, by decide +kernel,
    by decide +kernel⟩
  unfold TailAgrees
  decide +kernel

end GraphR.Opening
