import GraphR.Format.Container

/-! # What a container file is

    The reader, taken apart: what `Dir::parse` accepts is a header, a directory of
    entries that are each in order (`EntryOk`), and padding that is zero around
    them (`checkPadding_ok`). The writer's file is put together of the same parts,
    so that the round trip is a matter of reading each part back. -/

namespace GraphR.Container

open ByteLib FaultLib

/-! ## Directory entries -/

/-- One directory entry, as read. -/
structure DirEntry where
  kind : UInt16
  flags : UInt16
  offset : Nat
  length : Nat
  deriving DecidableEq

namespace DirEntry

/-- Its bytes: start and end. -/
def span (e : DirEntry) : Nat × Nat := (e.offset, e.offset + e.length)

/-- What the directory keeps of it. -/
def kept (e : DirEntry) : Nat × Nat × UInt16 := (e.offset, e.length, e.flags)

end DirEntry

/-- Entry `i` of the directory of `bytes`. -/
def entryAt (bytes : Bytes) (i : Nat) : DirEntry :=
  { kind := u16At bytes (headerLen + i * dirEntryLen)
    flags := u16At bytes (headerLen + i * dirEntryLen + 2)
    offset := (u64At bytes (headerLen + i * dirEntryLen + 8)).toNat
    length := (u64At bytes (headerLen + i * dirEntryLen + 16)).toNat }

section reader
variable (xxh3 : Bytes → UInt64)

/-- An entry that stands: in bounds, aligned, its checksum right. -/
structure EntryOk (bytes : Bytes) (dirEnd i : Nat) : Prop where
  fits : (entryAt bytes i).offset + (entryAt bytes i).length < 2 ^ 64
  after : dirEnd ≤ (entryAt bytes i).offset
  inFile : (entryAt bytes i).offset + (entryAt bytes i).length ≤ bytes.length
  aligned : (entryAt bytes i).offset % align = 0
  sum : xxh3 (range bytes (entryAt bytes i).offset (entryAt bytes i).length)
    = u64At bytes (headerLen + i * dirEntryLen + 24)

variable {xxh3} {bytes : Bytes} {dirEnd : Nat}

/-- One entry is accepted when it stands and its kind is new. -/
theorem parseEntry_ok {i : Nat} {d : Dir} {r : Dir × (Nat × Nat)} :
    Dir.parseEntry xxh3 bytes dirEnd i d = .ok r ↔
      EntryOk xxh3 bytes dirEnd i ∧ d.entry (entryAt bytes i).kind = none ∧
        r = (d.put (entryAt bytes i).kind (entryAt bytes i).kept, (entryAt bytes i).span) := by
  unfold Dir.parseEntry
  simp only [check_bind_ok, Option.isNone_iff_eq_none, Except.ok.injEq]
  constructor
  · rintro ⟨hfits, ⟨hafter, hin⟩, halign, hsum, hnone, rfl⟩
    exact ⟨⟨hfits, hafter, hin, halign, hsum⟩, hnone, rfl⟩
  · rintro ⟨⟨hfits, hafter, hin, halign, hsum⟩, hnone, rfl⟩
    exact ⟨hfits, ⟨hafter, hin⟩, halign, hsum, hnone, rfl⟩

/-! ## The section tables -/

/-- Looking a kind up after recording one that was not there. A section of
    length 0 is recorded as absent among the fast kinds. -/
theorem entry_put {d : Dir} {kind : UInt16} (h : d.entry kind = none) (x : Nat × Nat × UInt16)
    (k : UInt16) : (d.put kind x).entry k =
      if k = kind then (if kind.toNat < fastKinds ∧ x.2.1 = 0 then none else some x)
      else d.entry k := by
  unfold Dir.put
  by_cases hfast : kind.toNat < fastKinds
  · rw [if_pos hfast]
    by_cases hk : k = kind
    · subst hk
      simp only [Dir.entry, hfast, if_true, Function.update_self, true_and]
      by_cases hx : x.2.1 = 0
      · simp [hx]
      · simp [hx, Nat.pos_of_ne_zero hx]
    · have hne : k.toNat ≠ kind.toNat := fun heq => hk (UInt16.toNat_inj.mp heq)
      simp only [Dir.entry, Function.update_of_ne hne, hk, if_false]
  · rw [if_neg hfast]
    have hfind : d.other.find? (fun e => e.1 = kind) = none := by
      rw [Dir.entry, if_neg hfast, Option.map_eq_none_iff] at h
      exact h
    by_cases hk : k = kind
    · subst hk
      simp only [Dir.entry, hfast, if_false, List.find?_append, hfind, Option.none_or, if_true,
        false_and]
      simp
    · have hne : ¬kind = k := fun heq => hk heq.symm
      simp only [Dir.entry, List.find?_append, hk, if_false]
      simp [hne]

/-- The tables hold the entries read so far. -/
structure Reflects (es : List DirEntry) (d : Dir) : Prop where
  found : ∀ e ∈ es, 0 < e.length → d.entry e.kind = some e.kept
  source : ∀ kind x, d.entry kind = some x → ⟨kind, x.2.2, x.1, x.2.1⟩ ∈ es
  distinct : es.Pairwise fun a b => 0 < a.length → 0 < b.length → a.kind ≠ b.kind

theorem Reflects.put {es : List DirEntry} {d : Dir} (h : Reflects es d) {e : DirEntry}
    (hnone : d.entry e.kind = none) : Reflects (es ++ [e]) (d.put e.kind e.kept) := by
  have hother : ∀ a ∈ es, 0 < a.length → a.kind ≠ e.kind := by
    intro a ha hlen heq
    have := h.found a ha hlen
    rw [heq, hnone] at this
    cases this
  refine ⟨?_, ?_, ?_⟩
  · intro a ha hlen
    rw [entry_put hnone]
    rcases List.mem_append.mp ha with ha | ha
    · rw [if_neg (hother a ha hlen)]
      exact h.found a ha hlen
    · cases List.mem_singleton.mp ha
      rw [if_pos rfl, if_neg fun hz => absurd hz.2 (Nat.ne_of_gt hlen)]
  · intro kind x hx
    rw [entry_put hnone] at hx
    by_cases hk : kind = e.kind
    · rw [if_pos hk] at hx
      split_ifs at hx
      cases hx
      subst hk
      simp [DirEntry.kept]
    · rw [if_neg hk] at hx
      exact List.mem_append_left _ (h.source kind x hx)
  · rw [List.pairwise_append]
    refine ⟨h.distinct, List.pairwise_singleton _ _, ?_⟩
    intro a ha b hb hlen _
    cases List.mem_singleton.mp hb
    exact hother a ha hlen

/-- The entries `i ..`, `k` of them. -/
def entriesAt (bytes : Bytes) (i k : Nat) : List DirEntry := (List.range' i k).map (entryAt bytes)

theorem entriesAt_succ (bytes : Bytes) (i k : Nat) :
    entriesAt bytes i (k + 1) = entryAt bytes i :: entriesAt bytes (i + 1) k := by
  simp [entriesAt, List.range'_succ]

/-- What the loop over the directory did when it went through. -/
theorem parseEntries_ok {k i : Nat} {d d' : Dir} {spans spans' : List (Nat × Nat)}
    {es : List DirEntry} (hd : Reflects es d)
    (h : Dir.parseEntries xxh3 bytes dirEnd k i d spans = .ok (d', spans')) :
    (∀ j < k, EntryOk xxh3 bytes dirEnd (i + j)) ∧ Reflects (es ++ entriesAt bytes i k) d' ∧
      spans' = spans ++ (entriesAt bytes i k).map DirEntry.span ∧ d'.flags = d.flags ∧
      d'.owner = d.owner := by
  induction k generalizing i d spans es with
  | zero =>
    cases h
    refine ⟨by simp, ?_, ?_, rfl, rfl⟩
    · simpa [entriesAt] using hd
    · simp [entriesAt]
  | succ k ih =>
    rw [Dir.parseEntries, bind_ok] at h
    obtain ⟨r, hr, h⟩ := h
    obtain ⟨hok, hnone, rfl⟩ := parseEntry_ok.mp hr
    obtain ⟨hoks, hrefl, hspans, hflags, howner⟩ := ih (hd.put hnone) h
    refine ⟨?_, ?_, ?_, ?_, ?_⟩
    · intro j hj
      cases j with
      | zero => exact hok
      | succ j =>
        have := hoks j (by omega)
        rwa [show i + 1 + j = i + (j + 1) by omega] at this
    · rwa [List.append_assoc, List.singleton_append, ← entriesAt_succ] at hrefl
    · rw [hspans, entriesAt_succ, List.map_cons, List.append_assoc]
      rfl
    · rw [hflags]
      unfold Dir.put
      split_ifs <;> rfl
    · rw [howner]
      unfold Dir.put
      split_ifs <;> rfl

/-- Entries that stand, of kinds that differ, go through. -/
theorem parseEntries_of_ok {k i : Nat} {d : Dir} {spans : List (Nat × Nat)} {es : List DirEntry}
    (hd : Reflects es d) (hok : ∀ j < k, EntryOk xxh3 bytes dirEnd (i + j))
    (hkinds : ((es ++ entriesAt bytes i k).map DirEntry.kind).Nodup) :
    ∃ d', Dir.parseEntries xxh3 bytes dirEnd k i d spans
      = .ok (d', spans ++ (entriesAt bytes i k).map DirEntry.span) := by
  induction k generalizing i d spans es with
  | zero => exact ⟨d, by simp [Dir.parseEntries, entriesAt]⟩
  | succ k ih =>
    rw [entriesAt_succ] at hkinds ⊢
    have hnone : d.entry (entryAt bytes i).kind = none := by
      by_contra hne
      obtain ⟨x, hx⟩ := Option.ne_none_iff_exists'.mp hne
      have hmem := List.mem_map_of_mem (f := DirEntry.kind) (hd.source _ x hx)
      rw [List.map_append, List.nodup_append] at hkinds
      exact hkinds.2.2 _ hmem _ (by simp) rfl
    have hhead : EntryOk xxh3 bytes dirEnd i := hok 0 (by omega)
    obtain ⟨d', hd'⟩ := @ih (i + 1) (d.put (entryAt bytes i).kind (entryAt bytes i).kept)
      (spans ++ [(entryAt bytes i).span]) (es ++ [entryAt bytes i]) (hd.put hnone)
      (by
        intro j hj
        rw [show i + 1 + j = i + (j + 1) by omega]
        exact hok (j + 1) (by omega))
      (by simpa using hkinds)
    refine ⟨d', ?_⟩
    rw [Dir.parseEntries, parseEntry_ok.mpr ⟨hhead, hnone, rfl⟩]
    simp only [bind, Except.bind]
    rw [hd']
    simp

/-! ## Padding -/

/-- The sweep over the spans went through: they follow one another from `at_` on,
    and every byte in none of them is zero. -/
structure Swept (bytes : Bytes) (at_ : Nat) (spans : List (Nat × Nat)) : Prop where
  starts : ∀ p ∈ spans, at_ ≤ p.1
  apart : spans.Pairwise fun a b => a.2 ≤ b.1
  zero : ∀ i, at_ ≤ i → i < bytes.length → (∃ p ∈ spans, i < p.1) →
    (∀ p ∈ spans, ¬(p.1 ≤ i ∧ i < p.2)) → byteAt bytes i = 0

theorem checkPadding_ok {at_ : Nat} {spans : List (Nat × Nat)} (hle : ∀ p ∈ spans, p.1 ≤ p.2)
    (h : Dir.checkPadding bytes at_ spans = .ok ()) : Swept bytes at_ spans := by
  induction spans generalizing at_ with
  | nil => exact ⟨by simp, List.Pairwise.nil, by simp⟩
  | cons p rest ih =>
    obtain ⟨start, stop⟩ := p
    rw [Dir.checkPadding, check_bind_ok] at h
    obtain ⟨⟨hat, hzero⟩, h⟩ := h
    have hrest := ih (fun q hq => hle q (List.mem_cons_of_mem _ hq)) h
    have hspan : start ≤ stop := hle (start, stop) (by simp)
    refine ⟨?_, List.pairwise_cons.mpr ⟨fun q hq => hrest.starts q hq, hrest.apart⟩, ?_⟩
    · intro q hq
      rcases List.mem_cons.mp hq with rfl | hq
      · exact hat
      · have := hrest.starts q hq
        omega
    · intro i hi hlen hbefore hout
      -- a byte before this span is padding; one past it is the rest's business
      by_cases his : i < start
      · have hmem : byteAt bytes i ∈ range bytes at_ (start - at_) := by
          have hget : byteAt (range bytes at_ (start - at_)) (i - at_) = byteAt bytes i := by
            rw [byteAt_range (by omega), Nat.add_sub_cancel' hi]
          have hlt : i - at_ < (range bytes at_ (start - at_)).length := by
            rw [length_range]; omega
          rw [← hget, byteAt, List.getD_eq_getElem?_getD, List.getElem?_eq_getElem hlt,
            Option.getD_some]
          exact List.getElem_mem hlt
        simpa using List.all_eq_true.mp hzero _ hmem
      · have hpast : stop ≤ i := by
          have := hout (start, stop) (by simp)
          simp only at this
          omega
        obtain ⟨q, hq, hiq⟩ := hbefore
        rcases List.mem_cons.mp hq with rfl | hq
        · exact absurd hiq his
        · exact hrest.zero i hpast hlen ⟨q, hq, hiq⟩ fun q hq =>
            hout q (List.mem_cons_of_mem _ hq)

end reader

/-! ## Accepted bytes -/

/-- Where the directory ends. -/
def dirEndOf (bytes : Bytes) : Nat := (u32At bytes 12).toNat * dirEntryLen + headerLen

/-- The directory. -/
def entriesOf (bytes : Bytes) : List DirEntry := entriesAt bytes 0 (u32At bytes 12).toNat

/-- The sections that hold something. -/
def nonEmpty (bytes : Bytes) : List DirEntry := (entriesOf bytes).filter fun e => 0 < e.length

/-- The two spans share no byte. -/
def Disjoint (a b : DirEntry) : Prop :=
  a.offset + a.length ≤ b.offset ∨ b.offset + b.length ≤ a.offset

/-- A file whose every byte is accounted for, and the directory read from it. -/
structure LaidOut (bytes : Bytes) (d : Dir) : Prop where
  dirInFile : dirEndOf bytes ≤ bytes.length
  /-- The reader finds each non-empty section by its kind, and nothing else. -/
  found : ∀ e ∈ nonEmpty bytes, d.entry e.kind = some e.kept
  source : ∀ kind, d.sec bytes kind ≠ [] → ∃ e ∈ nonEmpty bytes, e.kind = kind
  inFile : ∀ e ∈ nonEmpty bytes, e.offset + e.length ≤ bytes.length
  aligned : ∀ e ∈ nonEmpty bytes, e.offset % align = 0
  after : ∀ e ∈ nonEmpty bytes, dirEndOf bytes ≤ e.offset
  kinds : (nonEmpty bytes).Pairwise fun a b => a.kind ≠ b.kind
  disjoint : (nonEmpty bytes).Pairwise Disjoint
  zero : ∀ i, dirEndOf bytes ≤ i → i < bytes.length →
    (∀ e ∈ nonEmpty bytes, ¬(e.offset ≤ i ∧ i < e.offset + e.length)) → byteAt bytes i = 0

section accepted
variable {xxh3 : Bytes → UInt64} {bytes : Bytes} {format : Format} {d : Dir}

/-- The tables before the first entry: nothing recorded. -/
def blankDir (bytes : Bytes) : Dir :=
  ⟨u16At bytes 6, range bytes ownerAt ownerLen, fun _ => (0, 0, 0), []⟩

theorem reflects_blankDir (bytes : Bytes) : Reflects [] (blankDir bytes) := by
  refine ⟨by simp, ?_, List.Pairwise.nil⟩
  intro kind x hx
  simp [Dir.entry, blankDir] at hx

/-- The reader, as the checks it makes. -/
theorem parse_ok : Dir.parse xxh3 bytes format = .ok d ↔
    checkHeader xxh3 bytes format = .ok () ∧ (u64At bytes 16).toNat = bytes.length ∧
      dirEndOf bytes ≤ bytes.length ∧
      xxh3 (range bytes headerLen (dirEndOf bytes - headerLen)) = u64At bytes 24 ∧
      ∃ spans, Dir.parseEntries xxh3 bytes (dirEndOf bytes) (u32At bytes 12).toNat 0
          (blankDir bytes) [] = .ok (d, spans) ∧
        Dir.checkPadding bytes (dirEndOf bytes)
          (Dir.sortSpans spans ++ [(bytes.length, bytes.length)]) = .ok () := by
  unfold Dir.parse
  rw [bind_ok]
  constructor
  · rintro ⟨⟨⟩, hheader, h⟩
    rw [check_bind_ok, check_bind_ok, check_bind_ok, bind_ok] at h
    obtain ⟨htotal, hdir, hsum, ⟨d', spans⟩, hentries, h⟩ := h
    obtain ⟨⟨⟩, hpad, h⟩ := bind_ok.mp h
    cases h
    exact ⟨hheader, htotal, hdir, hsum, spans, hentries, hpad⟩
  · rintro ⟨hheader, htotal, hdir, hsum, spans, hentries, hpad⟩
    refine ⟨(), hheader, ?_⟩
    rw [check_bind_ok, check_bind_ok, check_bind_ok, bind_ok]
    exact ⟨htotal, hdir, hsum, (d, spans), hentries, bind_ok.mpr ⟨(), hpad, rfl⟩⟩

theorem mem_nonEmpty {e : DirEntry} : e ∈ nonEmpty bytes ↔ e ∈ entriesOf bytes ∧ 0 < e.length := by
  simp [nonEmpty]

theorem entryOk_of_mem {dirEnd : Nat}
    (hok : ∀ j < (u32At bytes 12).toNat, EntryOk xxh3 bytes dirEnd (0 + j)) {e : DirEntry}
    (he : e ∈ entriesOf bytes) :
    dirEnd ≤ e.offset ∧ e.offset + e.length ≤ bytes.length ∧ e.offset % align = 0 := by
  obtain ⟨j, hj, rfl⟩ := List.mem_map.mp he
  have hlt : j < (u32At bytes 12).toNat := by simpa using hj
  have h := hok j hlt
  rw [Nat.zero_add] at h
  exact ⟨h.after, h.inFile, h.aligned⟩

/-- The spans of the directory, sorted and swept, are apart in any order. -/
theorem disjoint_of_swept {at_ n : Nat} {es : List DirEntry}
    (h : Swept bytes at_ (Dir.sortSpans (es.map DirEntry.span) ++ [(n, n)])) :
    es.Pairwise Disjoint := by
  have hsorted := (List.pairwise_append.mp h.apart).1
  have hsym : (Dir.sortSpans (es.map DirEntry.span)).Pairwise
      fun a b => a.2 ≤ b.1 ∨ b.2 ≤ a.1 := hsorted.imp fun hab => .inl hab
  have hperm : (Dir.sortSpans (es.map DirEntry.span)).Perm (es.map DirEntry.span) :=
    List.perm_insertionSort _ _
  have hspans : (es.map DirEntry.span).Pairwise fun a b => a.2 ≤ b.1 ∨ b.2 ≤ a.1 :=
    (hperm.pairwise_iff fun hab => Or.symm hab).mp hsym
  rw [List.pairwise_map] at hspans
  exact hspans

/-- Whatever the reader accepts is laid out. -/
theorem laidOut_of_parse (h : Dir.parse xxh3 bytes format = .ok d) : LaidOut bytes d := by
  obtain ⟨-, -, hdir, -, spans, hentries, hpad⟩ := parse_ok.mp h
  obtain ⟨hok, hrefl, rfl, -, -⟩ := parseEntries_ok (reflects_blankDir bytes) hentries
  rw [List.nil_append] at hpad hrefl
  have hspan : ∀ p ∈ Dir.sortSpans ((entriesOf bytes).map DirEntry.span) ++
      [(bytes.length, bytes.length)], p.1 ≤ p.2 := by
    intro p hp
    rcases List.mem_append.mp hp with hp | hp
    · obtain ⟨e, -, rfl⟩ := List.mem_map.mp ((List.perm_insertionSort _ _).mem_iff.mp hp)
      exact Nat.le_add_right _ _
    · cases List.mem_singleton.mp hp
      exact le_rfl
  have hswept := checkPadding_ok hspan hpad
  refine ⟨hdir, ?_, ?_, ?_, ?_, ?_, ?_, ?_, ?_⟩
  · intro e he
    exact hrefl.found e (mem_nonEmpty.mp he).1 (mem_nonEmpty.mp he).2
  · intro kind hne
    cases hentry : d.entry kind with
    | none => simp [Dir.sec, hentry] at hne
    | some x =>
      refine ⟨_, mem_nonEmpty.mpr ⟨hrefl.source kind x hentry, ?_⟩, rfl⟩
      by_contra hlen
      have hx : x.2.1 = 0 := by simpa using hlen
      simp [Dir.sec, hentry, hx, range] at hne
  · intro e he
    exact (entryOk_of_mem hok (mem_nonEmpty.mp he).1).2.1
  · intro e he
    exact (entryOk_of_mem hok (mem_nonEmpty.mp he).1).2.2
  · intro e he
    exact (entryOk_of_mem hok (mem_nonEmpty.mp he).1).1
  · refine List.pairwise_filter.mpr (hrefl.distinct.imp ?_)
    intro a b hab ha hb
    exact hab (by simpa using ha) (by simpa using hb)
  · exact (disjoint_of_swept hswept).filter _
  · intro i hi hlen hout
    refine hswept.zero i hi hlen ⟨(bytes.length, bytes.length), by simp, hlen⟩ ?_
    intro p hp hin
    rcases List.mem_append.mp hp with hp | hp
    · obtain ⟨e, he, rfl⟩ := List.mem_map.mp ((List.perm_insertionSort _ _).mem_iff.mp hp)
      have hpos : 0 < e.length := by
        have h1 : e.offset ≤ i := hin.1
        have h2 : i < e.offset + e.length := hin.2
        omega
      exact hout e (mem_nonEmpty.mpr ⟨he, hpos⟩) hin
    · cases List.mem_singleton.mp hp
      exact absurd hin.2 (by simp; omega)

end accepted

end GraphR.Container
