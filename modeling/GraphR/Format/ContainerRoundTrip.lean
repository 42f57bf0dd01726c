import GraphR.Format.ContainerFile

/-! # A written container reads back

    `Writer::finish` computes each section's offset twice: once for the directory
    (`layout`) and once by padding the file as it grows (`body`). Both are read off
    one recursion here, and the reader's checks are met part by part: the header
    words, the directory entries, the padding. -/

namespace GraphR.Container

open ByteLib FaultLib

/-! ## Alignment -/

theorem le_alignUp (n : Nat) : n ≤ alignUp n := by
  unfold alignUp align
  omega

theorem alignUp_mod (n : Nat) : alignUp n % align = 0 := Nat.mul_mod_left _ _

theorem length_padded (out : Bytes) : (Writer.padded out).length = alignUp out.length := by
  have := le_alignUp out.length
  simp only [Writer.padded, List.length_append, List.length_replicate]
  omega

/-- There are 65536 kinds. -/
theorem length_le_of_nodup_kinds {kinds : List UInt16} (h : kinds.Nodup) :
    kinds.length ≤ 65536 := by
  have hnodup : (kinds.map UInt16.toNat).Nodup := h.map fun _ _ heq => UInt16.toNat_inj.mp heq
  have hsub : kinds.map UInt16.toNat ⊆ List.range 65536 := by
    intro n hn
    obtain ⟨k, -, rfl⟩ := List.mem_map.mp hn
    exact List.mem_range.mpr k.toNat_lt
  have hle := (List.subperm_of_subset hnodup hsub).length_le
  rwa [List.length_map, List.length_range] at hle

namespace Writer

/-! ## The data pass -/

/-- The sections as they follow a file of `n` bytes, each after its padding. -/
def body : Nat → List Section → Bytes
  | _, [] => []
  | n, s :: rest =>
    List.replicate (alignUp n - n) 0 ++ (s.bytes ++ body (alignUp n + s.bytes.length) rest)

theorem foldl_padded (head : Bytes) (secs : List Section) :
    secs.foldl (fun out s => padded out ++ s.bytes) head = head ++ body head.length secs := by
  induction secs generalizing head with
  | nil => simp [body]
  | cons s rest ih =>
    rw [List.foldl_cons, ih, body, List.length_append, length_padded, padded]
    simp

/-- The directory pass ends where the data pass does, padded. -/
theorem layoutEnd_eq (n : Nat) (secs : List Section) :
    layoutEnd (alignUp n) secs = alignUp (n + (body n secs).length) := by
  induction secs generalizing n with
  | nil => rfl
  | cons s rest ih =>
    rw [layoutEnd, ih, body]
    have := le_alignUp n
    congr 1
    simp only [List.length_append, List.length_replicate]
    omega

/-- A section stands where the directory says. -/
theorem range_body {n : Nat} {secs : List Section} {p : Nat × Section}
    (hp : p ∈ layout (alignUp n) secs) {pre : Bytes} (hpre : pre.length = n) (post : Bytes) :
    range (pre ++ (body n secs ++ post)) p.1 p.2.bytes.length = p.2.bytes ∧
      n ≤ p.1 ∧ p.1 % align = 0 ∧ p.1 + p.2.bytes.length ≤ n + (body n secs).length := by
  induction secs generalizing n pre with
  | nil => cases hp
  | cons s rest ih =>
    have hle := le_alignUp n
    -- the file up to this section's start, and up to its end
    have hstart : (pre ++ List.replicate (alignUp n - n) (0 : UInt8)).length = alignUp n := by
      simp only [List.length_append, List.length_replicate]
      omega
    have hstop : (pre ++ List.replicate (alignUp n - n) (0 : UInt8) ++ s.bytes).length
        = alignUp n + s.bytes.length := by
      rw [List.length_append, hstart]
    have hlen : (body n (s :: rest)).length
        = alignUp n - n + s.bytes.length + (body (alignUp n + s.bytes.length) rest).length := by
      simp only [body, List.length_append, List.length_replicate]
      omega
    have hsplit : pre ++ (body n (s :: rest) ++ post)
        = pre ++ List.replicate (alignUp n - n) 0 ++ s.bytes ++
          (body (alignUp n + s.bytes.length) rest ++ post) := by
      simp [body]
    rw [hsplit, hlen]
    rcases List.mem_cons.mp hp with rfl | hp
    · refine ⟨?_, hle, alignUp_mod n, by simp only; omega⟩
      rw [List.append_assoc, range_append_right (by rw [hstart]), hstart, Nat.sub_self,
        range_zero_append rfl]
    · obtain ⟨hrange, hge, hmod, hend⟩ := ih hp hstop
      exact ⟨hrange, by omega, hmod, by omega⟩

/-! ## The spans -/

/-- The sections' spans, as the directory has them. -/
def spans (n : Nat) (secs : List Section) : List (Nat × Nat) :=
  (layout n secs).map fun p => (p.1, p.1 + p.2.bytes.length)

theorem le_of_mem_layout {n : Nat} {secs : List Section} {p : Nat × Section}
    (hp : p ∈ layout n secs) : n ≤ p.1 := by
  induction secs generalizing n with
  | nil => cases hp
  | cons s rest ih =>
    rcases List.mem_cons.mp hp with rfl | hp
    · exact le_rfl
    · have := ih hp
      have := le_alignUp (n + s.bytes.length)
      omega

/-- They are in order already. -/
theorem sortSpans_spans (n : Nat) (secs : List Section) :
    Dir.sortSpans (spans n secs) = spans n secs := by
  refine List.Pairwise.insertionSort_eq ?_
  induction secs generalizing n with
  | nil => exact List.Pairwise.nil
  | cons s rest ih =>
    refine List.pairwise_cons.mpr ⟨?_, ih _⟩
    intro q hq
    obtain ⟨p, hp, rfl⟩ := List.mem_map.mp hq
    have := le_of_mem_layout hp
    have := le_alignUp (n + s.bytes.length)
    simp only
    omega

/-- The sweep goes through: what lies between the spans is the writer's padding. -/
theorem checkPadding_body {n : Nat} {secs : List Section} {pre : Bytes} (hpre : pre.length = n)
    {bytes : Bytes} (hbytes : bytes = padded (pre ++ body n secs)) :
    Dir.checkPadding bytes n (spans (alignUp n) secs ++ [(bytes.length, bytes.length)])
      = .ok () := by
  induction secs generalizing n pre with
  | nil =>
    -- the last stretch: the padding after the last section
    have hlen : bytes.length = alignUp n := by
      rw [hbytes, length_padded]
      simp [body, hpre]
    have hrange : range bytes n (bytes.length - n) = List.replicate (alignUp n - n) 0 := by
      rw [hlen, hbytes, padded, body, List.append_nil, hpre, range_append_right (by omega), hpre,
        Nat.sub_self, range_zero_self (by simp)]
    rw [spans, layout, List.map_nil, List.nil_append, Dir.checkPadding, check_bind_ok, hrange]
    exact ⟨⟨by rw [hlen]; exact le_alignUp n, by simp⟩, rfl⟩
  | cons s rest ih =>
    have hle := le_alignUp n
    have hpad : range bytes n (alignUp n - n) = List.replicate (alignUp n - n) 0 := by
      rw [hbytes, padded, body, List.append_assoc pre, List.append_assoc,
        range_append_right (by omega), hpre, Nat.sub_self,
        range_zero_append (by simp)]
    rw [spans, layout, List.map_cons, List.cons_append, Dir.checkPadding, check_bind_ok, hpad]
    refine ⟨⟨hle, by simp⟩, ?_⟩
    have hnext : (pre ++ List.replicate (alignUp n - n) (0 : UInt8) ++ s.bytes).length
        = alignUp n + s.bytes.length := by
      simp only [List.length_append, List.length_replicate]
      omega
    refine ih hnext ?_
    rw [hbytes, body]
    simp

/-! ## The finished file -/

section file
variable {xxh3 : Bytes → UInt64} {w : Writer}

/-- Everything before the first section. -/
def head (xxh3 : Bytes → UInt64) (w : Writer) : Bytes :=
  w.headerBody xxh3 ++ (putU64 (xxh3 (w.headerBody xxh3)) ++ w.dir xxh3)

theorem length_layout (n : Nat) (secs : List Section) : (layout n secs).length = secs.length := by
  induction secs generalizing n with
  | nil => rfl
  | cons s rest ih => rw [layout, List.length_cons, ih, List.length_cons]

theorem length_entryBytes (xxh3 : Bytes → UInt64) (p : Nat × Section) :
    (entryBytes xxh3 p).length = dirEntryLen := by
  simp [entryBytes, dirEntryLen]

theorem length_dir (xxh3 : Bytes → UInt64) (w : Writer) :
    (w.dir xxh3).length = w.sections.length * dirEntryLen := by
  rw [dir, length_flatMap_const (length_entryBytes xxh3), length_layout, Nat.mul_comm]

theorem length_headerBody (howner : w.owner.length = ownerLen) :
    (w.headerBody xxh3).length = sumAt := by
  simp [headerBody, howner, ownerLen, sumAt, headerLen]

theorem length_head (howner : w.owner.length = ownerLen) : (w.head xxh3).length = w.dirEnd := by
  rw [head, List.length_append, List.length_append, length_headerBody howner, length_dir]
  simp only [length_putU64, sumAt, dirEnd, headerLen]
  omega

/-- The file is its head and its sections, padded. -/
theorem finish_eq (howner : w.owner.length = ownerLen) :
    w.finish xxh3 = padded (w.head xxh3 ++ body w.dirEnd w.sections) := by
  have hout : w.sections.foldl (fun out s => padded out ++ s.bytes) (w.head xxh3)
      = w.head xxh3 ++ body w.dirEnd w.sections := by
    rw [foldl_padded, length_head howner]
  have hlen : (w.head xxh3 ++ body w.dirEnd w.sections).length
      = w.dirEnd + (body w.dirEnd w.sections).length := by
    rw [List.length_append, length_head howner]
  have htotal : w.total = alignUp (w.head xxh3 ++ body w.dirEnd w.sections).length := by
    have := le_alignUp (w.dirEnd + (body w.dirEnd w.sections).length)
    rw [total, layoutEnd_eq, hlen]
    omega
  have hfinish : w.finish xxh3
      = w.sections.foldl (fun out s => padded out ++ s.bytes) (w.head xxh3) ++
        List.replicate (w.total -
          (w.sections.foldl (fun out s => padded out ++ s.bytes) (w.head xxh3)).length) 0 := rfl
  rw [hfinish, hout, htotal, padded]

theorem length_finish (howner : w.owner.length = ownerLen) :
    (w.finish xxh3).length = w.total := by
  have := le_alignUp (w.dirEnd + (body w.dirEnd w.sections).length)
  rw [finish_eq howner, length_padded, List.length_append, length_head howner, total, layoutEnd_eq]
  omega

/-- Reads of the head go through to it. -/
theorem finish_head (howner : w.owner.length = ownerLen) :
    ∃ tail, w.finish xxh3 = w.headerBody xxh3 ++ (putU64 (xxh3 (w.headerBody xxh3)) ++
      (w.dir xxh3 ++ tail)) := by
  rw [finish_eq howner, padded, head]
  simp only [List.append_assoc]
  exact ⟨_, rfl⟩

/-! ## The header and the directory, read back -/

theorem header_words (howner : w.owner.length = ownerLen) :
    u32At (w.finish xxh3) 0 = w.format.magic ∧ u16At (w.finish xxh3) 4 = w.format.version ∧
      u16At (w.finish xxh3) 6 = w.flags ∧ u32At (w.finish xxh3) 8 = UInt32.ofNat headerLen ∧
      u32At (w.finish xxh3) 12 = UInt32.ofNat w.sections.length ∧
      u64At (w.finish xxh3) 16 = UInt64.ofNat w.total ∧
      u64At (w.finish xxh3) 24 = xxh3 (w.dir xxh3) ∧
      range (w.finish xxh3) ownerAt ownerLen = w.owner := by
  obtain ⟨tail, htail⟩ := @finish_head xxh3 w howner
  rw [htail, headerBody]
  simp only [List.append_assoc]
  refine ⟨?_, ?_, ?_, ?_, ?_, ?_, ?_, ?_⟩
  · simp
  · simp [u16At_append_right]
  · simp [u16At_append_right]
  · simp [u32At_append_right]
  · simp [u32At_append_right]
  · simp [u64At_append_right]
  · simp [u64At_append_right]
  · simp [range_append_right, ownerAt, range_zero_append howner]

theorem header_sum (howner : w.owner.length = ownerLen) :
    range (w.finish xxh3) 0 sumAt = w.headerBody xxh3 ∧
      u64At (w.finish xxh3) sumAt = xxh3 (w.headerBody xxh3) := by
  obtain ⟨tail, htail⟩ := @finish_head xxh3 w howner
  have hlen := @length_headerBody xxh3 w howner
  rw [htail]
  refine ⟨range_zero_append hlen, ?_⟩
  rw [u64At_append_right (by omega), hlen, Nat.sub_self, u64At_putU64_append]

theorem range_dir (howner : w.owner.length = ownerLen) :
    range (w.finish xxh3) headerLen (w.sections.length * dirEntryLen) = w.dir xxh3 := by
  obtain ⟨tail, htail⟩ := @finish_head xxh3 w howner
  have hlen : (w.headerBody xxh3 ++ putU64 (xxh3 (w.headerBody xxh3))).length = headerLen := by
    rw [List.length_append, length_headerBody howner, length_putU64]
    rfl
  rw [htail, ← List.append_assoc, range_append_right (by omega), hlen, Nat.sub_self,
    range_zero_append (length_dir xxh3 w)]

/-- The words of entry `i`. -/
theorem range_entry (howner : w.owner.length = ownerLen) {i : Nat} (hi : i < w.sections.length)
    {off n : Nat} (h : off + n ≤ dirEntryLen) :
    range (w.finish xxh3) (headerLen + i * dirEntryLen + off) n
      = range (entryBytes xxh3 ((layout (alignUp w.dirEnd) w.sections).get
          ⟨i, by rw [length_layout]; exact hi⟩)) off n := by
  have hin : i * dirEntryLen + off + n ≤ w.sections.length * dirEntryLen := by
    have := Nat.mul_le_mul_right dirEntryLen hi
    rw [Nat.succ_mul] at this
    omega
  have hstart : headerLen + i * dirEntryLen + off = headerLen + (i * dirEntryLen + off) := by omega
  rw [hstart, ← range_range hin, range_dir howner, dir, Nat.mul_comm i]
  have := range_chunk (length_entryBytes xxh3) (layout (alignUp w.dirEnd) w.sections) [] i
    (by rw [length_layout]; exact hi) h
  simpa using this

/-- The entry the directory holds for a placed section. -/
def entryFor (p : Nat × Section) : DirEntry := ⟨p.2.kind, p.2.flags, p.1, p.2.bytes.length⟩

theorem placed_lt (howner : w.owner.length = ownerLen) (hfits : (w.finish xxh3).length < 2 ^ 64)
    {p : Nat × Section} (hp : p ∈ layout (alignUp w.dirEnd) w.sections) :
    p.1 + p.2.bytes.length ≤ (w.finish xxh3).length ∧ p.1 + p.2.bytes.length < 2 ^ 64 := by
  obtain ⟨-, -, -, hend⟩ := range_body hp (@length_head xxh3 w howner) []
  have := le_alignUp (w.dirEnd + (body w.dirEnd w.sections).length)
  have htotal : w.dirEnd + (body w.dirEnd w.sections).length ≤ w.total := by
    rw [total, layoutEnd_eq]
    omega
  rw [length_finish howner] at hfits ⊢
  omega

theorem entryAt_finish (howner : w.owner.length = ownerLen)
    (hfits : (w.finish xxh3).length < 2 ^ 64) {i : Nat} (hi : i < w.sections.length) :
    entryAt (w.finish xxh3) i = entryFor ((layout (alignUp w.dirEnd) w.sections).get
        ⟨i, by rw [length_layout]; exact hi⟩) ∧
      u64At (w.finish xxh3) (headerLen + i * dirEntryLen + 24)
        = xxh3 ((layout (alignUp w.dirEnd) w.sections).get
            ⟨i, by rw [length_layout]; exact hi⟩).2.bytes := by
  have hkind := u16At_congr (@range_entry xxh3 w howner i hi 0 2 (by decide))
  have hflags := u16At_congr (@range_entry xxh3 w howner i hi 2 2 (by decide))
  have hoffset := u64At_congr (@range_entry xxh3 w howner i hi 8 8 (by decide))
  have hlength := u64At_congr (@range_entry xxh3 w howner i hi 16 8 (by decide))
  have hsum := u64At_congr (@range_entry xxh3 w howner i hi 24 8 (by decide))
  have hlt := (placed_lt howner hfits (List.get_mem (layout (alignUp w.dirEnd) w.sections)
    ⟨i, by rw [length_layout]; exact hi⟩)).2
  generalize (layout (alignUp w.dirEnd) w.sections).get ⟨i, by rw [length_layout]; exact hi⟩ = p
    at hkind hflags hoffset hlength hsum hlt ⊢
  rw [Nat.add_zero] at hkind
  refine ⟨?_, by rw [hsum]; simp [entryBytes, u64At_append_right]⟩
  rw [entryAt, hkind, hflags, hoffset, hlength, entryFor]
  simp [entryBytes, u16At_append_right, u64At_append_right]
  omega

theorem range_finish (howner : w.owner.length = ownerLen) {p : Nat × Section}
    (hp : p ∈ layout (alignUp w.dirEnd) w.sections) :
    range (w.finish xxh3) p.1 p.2.bytes.length = p.2.bytes := by
  rw [finish_eq howner, padded, List.append_assoc]
  exact (range_body hp (length_head howner) _).1

theorem entryOk_finish (howner : w.owner.length = ownerLen)
    (hfits : (w.finish xxh3).length < 2 ^ 64) {i : Nat} (hi : i < w.sections.length) :
    EntryOk xxh3 (w.finish xxh3) w.dirEnd i := by
  obtain ⟨hentry, hsum⟩ := entryAt_finish howner hfits hi
  have hmem := List.get_mem (layout (alignUp w.dirEnd) w.sections)
    ⟨i, by rw [length_layout]; exact hi⟩
  obtain ⟨hin, hlt⟩ := placed_lt howner hfits hmem
  obtain ⟨-, hafter, halign, -⟩ := range_body hmem (@length_head xxh3 w howner) []
  refine ⟨?_, ?_, ?_, ?_, ?_⟩ <;> rw [hentry]
  · exact hlt
  · exact hafter
  · exact hin
  · exact halign
  · rw [hsum]
    exact congrArg xxh3 (range_finish howner hmem)

/-- The directory of the file is the layout. -/
theorem entriesAt_finish (howner : w.owner.length = ownerLen)
    (hfits : (w.finish xxh3).length < 2 ^ 64) :
    entriesAt (w.finish xxh3) 0 w.sections.length
      = (layout (alignUp w.dirEnd) w.sections).map entryFor := by
  apply List.ext_getElem
  · simp [entriesAt, length_layout]
  · intro i h1 h2
    have hi : i < w.sections.length := by simpa [entriesAt] using h1
    simp only [entriesAt, List.getElem_map, List.getElem_range', Nat.zero_add, Nat.one_mul]
    exact (entryAt_finish howner hfits hi).1

theorem map_kind_layout (n : Nat) (secs : List Section) :
    (layout n secs).map (fun p => p.2) = secs := by
  induction secs generalizing n with
  | nil => rfl
  | cons s rest ih => rw [layout, List.map_cons, ih]

/-! ## The whole file -/

theorem checkHeader_finish (howner : w.owner.length = ownerLen) :
    checkHeader xxh3 (w.finish xxh3) w.format = .ok () := by
  obtain ⟨hmagic, hversion, -, hlen, -, -, -, -⟩ := @header_words xxh3 w howner
  obtain ⟨hbody, hsum⟩ := @header_sum xxh3 w howner
  have hlong : headerLen ≤ (w.finish xxh3).length := by
    rw [length_finish howner, total, dirEnd]
    omega
  unfold checkHeader
  rw [check_bind_ok, check_bind_ok, check_bind_ok, check_bind_ok, check_ok]
  refine ⟨hlong, hmagic, hversion, ?_, ?_⟩
  · rw [hbody, hsum]
  · rw [hlen]
    rfl

/-- The reader accepts the file, and its tables are the sections'. -/
theorem parse_finish (howner : w.owner.length = ownerLen)
    (hfits : (w.finish xxh3).length < 2 ^ 64)
    (hkinds : (w.sections.map Section.kind).Nodup) :
    ∃ d, Dir.parse xxh3 (w.finish xxh3) w.format = .ok d ∧ d.flags = w.flags ∧
      d.owner = w.owner ∧ Reflects ((layout (alignUp w.dirEnd) w.sections).map entryFor) d := by
  obtain ⟨-, -, hflags, -, hcount, htotal, hdirsum, hown⟩ := @header_words xxh3 w howner
  have hcard : w.sections.length < 2 ^ 32 := by
    have := length_le_of_nodup_kinds hkinds
    rw [List.length_map] at this
    omega
  have hcount' : (u32At (w.finish xxh3) 12).toNat = w.sections.length := by
    rw [hcount, UInt32.toNat_ofNat']
    exact Nat.mod_eq_of_lt hcard
  have hend : dirEndOf (w.finish xxh3) = w.dirEnd := by
    rw [dirEndOf, hcount', dirEnd, Nat.add_comm]
  have hentries := @entriesAt_finish xxh3 w howner hfits
  obtain ⟨d, hd⟩ := @parseEntries_of_ok xxh3 (w.finish xxh3) w.dirEnd w.sections.length 0
    (blankDir (w.finish xxh3)) [] [] (reflects_blankDir _)
    (fun j hj => by rw [Nat.zero_add]; exact entryOk_finish howner hfits hj)
    (by
      rw [List.nil_append, hentries, List.map_map]
      have : (DirEntry.kind ∘ entryFor) = Section.kind ∘ fun p => p.2 := rfl
      rw [this, ← List.map_map, map_kind_layout]
      exact hkinds)
  obtain ⟨-, hrefl, -, hdflags, hdowner⟩ := parseEntries_ok (reflects_blankDir _) hd
  have hspans : ((layout (alignUp w.dirEnd) w.sections).map entryFor).map DirEntry.span
      = spans (alignUp w.dirEnd) w.sections := by
    rw [List.map_map]
    rfl
  rw [List.nil_append, hentries] at hd hrefl
  rw [hspans] at hd
  refine ⟨d, parse_ok.mpr ⟨checkHeader_finish howner, ?_, ?_, ?_,
    spans (alignUp w.dirEnd) w.sections, ?_, ?_⟩, ?_, ?_, hrefl⟩
  · rw [htotal, UInt64.toNat_ofNat', ← @length_finish xxh3 w howner]
    exact Nat.mod_eq_of_lt hfits
  · rw [hend, length_finish howner, total]
    exact le_max_right _ _
  · rw [hend, hdirsum, dirEnd, Nat.add_sub_cancel_left, range_dir howner]
  · rw [hend, hcount']
    exact hd
  · rw [hend, sortSpans_spans]
    exact checkPadding_body (length_head howner) (finish_eq howner)
  · rw [hdflags, blankDir, hflags]
  · rw [hdowner, blankDir, hown]

/-- What the reader hands out for a section of the file, and for any other kind. -/
theorem sec_of_reflects (howner : w.owner.length = ownerLen)
    (hfits : (w.finish xxh3).length < 2 ^ 64) {d : Dir}
    (h : Reflects ((layout (alignUp w.dirEnd) w.sections).map entryFor) d) :
    (∀ s ∈ w.sections, s.bytes ≠ [] →
      d.sec (w.finish xxh3) s.kind = s.bytes ∧ d.sectionFlags s.kind = s.flags) ∧
    (∀ kind, (∀ s ∈ w.sections, s.kind ≠ kind) →
      d.sec (w.finish xxh3) kind = [] ∧ d.sectionFlags kind = 0) := by
  refine ⟨?_, ?_⟩
  · intro s hs hne
    rw [← map_kind_layout (alignUp w.dirEnd) w.sections] at hs
    obtain ⟨p, hp, rfl⟩ := List.mem_map.mp hs
    have hentry : d.entry p.2.kind = some (p.1, p.2.bytes.length, p.2.flags) :=
      h.found (entryFor p) (List.mem_map_of_mem hp) (List.length_pos_iff.mpr hne)
    refine ⟨?_, by rw [Dir.sectionFlags, hentry]; rfl⟩
    rw [Dir.sec, hentry]
    simp only
    rw [if_pos (placed_lt howner hfits hp).1, range_finish howner hp]
  · intro kind hkind
    have hentry : d.entry kind = none := by
      by_contra hne
      obtain ⟨x, hx⟩ := Option.ne_none_iff_exists'.mp hne
      obtain ⟨p, hp, heq⟩ := List.mem_map.mp (h.source kind x hx)
      have hmem : p.2 ∈ w.sections := by
        rw [← map_kind_layout (alignUp w.dirEnd) w.sections]
        exact List.mem_map_of_mem hp
      exact hkind p.2 hmem (congrArg DirEntry.kind heq)
    rw [Dir.sec, Dir.sectionFlags, hentry]
    exact ⟨rfl, rfl⟩

end file

/-! ## Building -/

/-- A container built with the writer's calls: the flags, the owner area, then
    the sections in order. -/
def build (format : Format) (flags : UInt16) (owner : Bytes) (secs : List Section) : Writer :=
  secs.foldl (fun w s => w.addFlagged s.kind s.flags s.bytes)
    (((new format).withFlags flags).withOwner owner)

theorem foldl_addFlagged (w : Writer) (secs : List Section) :
    secs.foldl (fun w s => w.addFlagged s.kind s.flags s.bytes) w
      = { w with sections := w.sections ++ secs.filter fun s => !s.bytes.isEmpty } := by
  induction secs generalizing w with
  | nil => simp
  | cons s rest ih =>
    rw [List.foldl_cons, ih, addFlagged]
    by_cases hs : s.bytes.isEmpty
    · simp [hs]
    · simp [hs]

theorem build_eq {owner : Bytes} (howner : owner.length ≤ ownerLen) (format : Format)
    (flags : UInt16) (secs : List Section) :
    build format flags owner secs =
      ⟨format, flags, owner ++ List.replicate (ownerLen - owner.length) 0,
        secs.filter fun s => !s.bytes.isEmpty⟩ := by
  rw [build, foldl_addFlagged]
  simp [new, withFlags, withOwner, List.take_of_length_le howner, Nat.min_eq_left howner]

end Writer

/-! ## The round trip -/

/-- The reader accepts what the writer's calls built, and finds each section. -/
theorem parse_build {xxh3 : Bytes → UInt64} {format : Format} {flags : UInt16} {owner : Bytes}
    {secs : List Section} (howner : owner.length ≤ ownerLen)
    (hkinds : (secs.map Section.kind).Nodup)
    (hfits : ((Writer.build format flags owner secs).finish xxh3).length < 2 ^ 64) :
    ∃ d, Dir.parse xxh3 ((Writer.build format flags owner secs).finish xxh3) format = .ok d ∧
      d.flags = flags ∧ d.owner = owner ++ List.replicate (ownerLen - owner.length) 0 ∧
      (∀ s ∈ secs, s.bytes ≠ [] →
        d.sec ((Writer.build format flags owner secs).finish xxh3) s.kind = s.bytes ∧
          d.sectionFlags s.kind = s.flags) ∧
      (∀ kind, (∀ s ∈ secs, s.bytes ≠ [] → s.kind ≠ kind) →
        d.sec ((Writer.build format flags owner secs).finish xxh3) kind = [] ∧
          d.sectionFlags kind = 0) := by
  rw [Writer.build_eq howner] at hfits ⊢
  generalize hw : (⟨format, flags, owner ++ List.replicate (ownerLen - owner.length) 0,
    secs.filter fun s => !s.bytes.isEmpty⟩ : Writer) = w at hfits ⊢
  have hlen : w.owner.length = ownerLen := by
    rw [← hw]
    simp only [List.length_append, List.length_replicate]
    omega
  have hmem : ∀ s, s ∈ w.sections ↔ s ∈ secs ∧ s.bytes ≠ [] := by
    rw [← hw]
    simp
  have hnodup : (w.sections.map Section.kind).Nodup := by
    rw [← hw]
    exact hkinds.sublist (List.filter_sublist.map _)
  obtain ⟨d, hparse, hflags, hown, hrefl⟩ := Writer.parse_finish hlen hfits hnodup
  obtain ⟨hsec, hother⟩ := Writer.sec_of_reflects hlen hfits hrefl
  refine ⟨d, ?_, ?_, ?_, ?_, ?_⟩
  · rw [← hparse, ← hw]
  · rw [hflags, ← hw]
  · rw [hown, ← hw]
  · intro s hs hne
    exact hsec s ((hmem s).mpr ⟨hs, hne⟩) hne
  · intro kind hkind
    refine hother kind ?_
    intro s hs
    exact hkind s ((hmem s).mp hs).1 ((hmem s).mp hs).2

/-- A container file reads back as it was written; and whatever the reader
    accepts is laid out, every byte accounted for. A file's length is a `usize`. -/
theorem container_round_trip (xxh3 : Bytes → UInt64) :
    (∀ (format : Format) (flags : UInt16) (owner : Bytes) (secs : List Section),
      owner.length ≤ ownerLen → (secs.map Section.kind).Nodup →
      ((Writer.build format flags owner secs).finish xxh3).length < 2 ^ 64 →
      ∃ d, Dir.parse xxh3 ((Writer.build format flags owner secs).finish xxh3) format = .ok d ∧
        d.flags = flags ∧ d.owner = owner ++ List.replicate (ownerLen - owner.length) 0 ∧
        (∀ s ∈ secs, s.bytes ≠ [] →
          d.sec ((Writer.build format flags owner secs).finish xxh3) s.kind = s.bytes ∧
            d.sectionFlags s.kind = s.flags) ∧
        (∀ kind, (∀ s ∈ secs, s.bytes ≠ [] → s.kind ≠ kind) →
          d.sec ((Writer.build format flags owner secs).finish xxh3) kind = [] ∧
            d.sectionFlags kind = 0)) ∧
    (∀ (format : Format) (bytes : Bytes) (d : Dir),
      Dir.parse xxh3 bytes format = .ok d → LaidOut bytes d) := by
  refine ⟨?_, fun _ _ _ h => laidOut_of_parse h⟩
  intro format flags owner secs howner hkinds hfits
  exact parse_build howner hkinds hfits

/-- A file of three sections, one of them empty and one of a kind past the fast
    table, in a format with flags and an owner area. -/
def threeSections : List Section := [⟨3, 1, [7, 8]⟩, ⟨4, 0, []⟩, ⟨200, 9, [5]⟩]

theorem container_round_trip_threeSections :
    ∃ d, Dir.parse (fun b => UInt64.ofNat b.length)
        ((Writer.build ⟨1, 2⟩ 6 [1, 2, 3] threeSections).finish
          fun b => UInt64.ofNat b.length) ⟨1, 2⟩ = .ok d ∧
      d.sec ((Writer.build ⟨1, 2⟩ 6 [1, 2, 3] threeSections).finish
        fun b => UInt64.ofNat b.length) 200 = [5] ∧
      LaidOut ((Writer.build ⟨1, 2⟩ 6 [1, 2, 3] threeSections).finish
        fun b => UInt64.ofNat b.length) d := by
  obtain ⟨hwrite, hread⟩ := container_round_trip fun b => UInt64.ofNat b.length
  obtain ⟨d, hparse, -, -, hsec, -⟩ := hwrite ⟨1, 2⟩ 6 [1, 2, 3] threeSections (by decide)
    (by decide) (by decide +kernel)
  exact ⟨d, hparse, (hsec ⟨200, 9, [5]⟩ (by decide) (by decide)).1, hread _ _ _ hparse⟩

end GraphR.Container
