import Wimi.BitHeader

/-!
# The format of a bitstream header

What `bitstream_parse_header` accepts, as an encoding. A magic length, a magic that alternates
between two bytes and ends with one that is ignored, the half word 1, four strings with their tags
and lengths, and the length of the bitstream behind the tag `e`.

Each part of the parser yields a value exactly where the encoding of that value stands
(`yields_bigEndian`, `yields_magic_iff`, `HeaderEnv.yields_string`), so the parser does
(`yields_header_iff`). `header_round_trip` reads both directions off it.
-/

open Scanner

namespace Wimi

/-! ## The encoding -/

/-- The last `k` bytes of `v`, most significant first. -/
def beBytes : ℕ → ℕ → List Byte
  | 0, _ => []
  | k + 1, v => beBytes k (v / 256) ++ [BitVec.ofNat 8 v]

/-- `k` bytes of the magic, from turn `I`. -/
def magicBytes : ℕ → ℕ → List Byte
  | 0, _ => []
  | k + 1, I =>
    (if I % 2 = 0 then XHI_EVEN_MAGIC_BYTE else XHI_ODD_MAGIC_BYTE) :: magicBytes k (I + 1)

/-- A string with its tag and its length. -/
def encodeString (tag : Byte) (name : List Byte) : List Byte :=
  tag :: (beBytes 2 name.length ++ name)

/-- A string that ends with a null byte and whose length has 16 bits. -/
structure NulTerminated (name : List Byte) : Prop where
  length_lt : name.length < 2 ^ 16
  last : name.getLast? = some 0

theorem NulTerminated.ne_nil {name : List Byte} (h : NulTerminated name) : name ≠ [] := by
  rintro rfl
  cases h.last

namespace BitHeader

variable (h : BitHeader)

/-- The `.bit` encoding of `h`, with `term` behind its magic. -/
def encode (term : Byte) : List Byte :=
  beBytes 2 h.magicLength.toNat ++ (magicBytes (h.magicLength.toNat - 1) 0 ++ (term ::
    (beBytes 2 1 ++ (encodeString 0x61 h.designName ++ (encodeString 0x62 h.partName ++
      (encodeString 0x63 h.date ++ (encodeString 0x64 h.time ++ (0x65 ::
        beBytes 4 h.bitstreamLength.toNat))))))))

/-- A header that has an encoding, and whose `HeaderLength` is its length. -/
structure WellFormed : Prop where
  magicLength : 1 ≤ h.magicLength.toNat ∧ h.magicLength.toNat < 2 ^ 16
  designName : NulTerminated h.designName
  partName : NulTerminated h.partName
  date : NulTerminated h.date
  time : NulTerminated h.time
  headerLength : ∀ term, h.headerLength.toNat = (h.encode term).length

end BitHeader

@[simp] theorem length_beBytes (k v : ℕ) : (beBytes k v).length = k := by
  induction k generalizing v with
  | zero => rfl
  | succ k ih => simp [beBytes, ih]

@[simp] theorem length_magicBytes (k I : ℕ) : (magicBytes k I).length = k := by
  induction k generalizing I with
  | zero => rfl
  | succ k ih => simp [magicBytes, ih]

/-! ## The parts of the parser -/

namespace HeaderEnv

variable {e : HeaderEnv} {m n k : ℕ}

/-- A word read byte by byte, seen from its last byte. -/
theorem bigEndian_succ (k : ℕ) (acc : U32) : e.bigEndian (k + 1) acc = do
    let v ← e.bigEndian k acc
    let b ← e.next
    return v <<< 8 ||| b.setWidth 32 := by
  induction k generalizing acc with
  | zero => simp [bigEndian]
  | succ k ih =>
    conv_rhs => rw [bigEndian, bind_assoc]
    rw [bigEndian]
    exact bind_congr fun b => ih _

/-- A word of `k` bytes stands where its bytes do. -/
theorem yields_bigEndian (hk : k ≤ 4) {w : U32} :
    Yields (e.bigEndian k 0) m w n ↔
      w.toNat < 256 ^ k ∧ Shows (byteAt e.data) m (beBytes k w.toNat) ∧ m + k = n := by
  induction k generalizing w n with
  | zero =>
    simp only [bigEndian, yields_pure, beBytes, shows_nil, true_and, pow_zero, Nat.lt_one_iff]
    rw [← BitVec.toNat_inj, eq_comm]
    rfl
  | succ k ih =>
    have hroom : 256 ^ k ≤ 2 ^ 24 := by
      rw [show (2 : ℕ) ^ 24 = 256 ^ 3 by norm_num]
      exact Nat.pow_le_pow_right (by norm_num) (by omega)
    simp only [bigEndian_succ, ok_bind, ih (by omega), yields_next, yields_pure, beBytes,
      shows_append, length_beBytes, shows_cons, shows_nil, and_true]
    constructor
    · rintro ⟨v, _, ⟨hv, hshows, rfl⟩, b, _, ⟨hb, rfl⟩, rfl, rfl⟩
      have hbyte := b.isLt
      rw [toNat_pushByte (by omega), pow_succ]
      have hdiv : (v.toNat * 256 + b.toNat) / 256 = v.toNat := by omega
      have hlow : BitVec.ofNat 8 (v.toNat * 256 + b.toNat) = b := by
        apply BitVec.eq_of_toNat_eq
        rw [BitVec.toNat_ofNat]
        omega
      rw [hdiv, hlow]
      exact ⟨by omega, ⟨hshows, hb⟩, by omega⟩
    · rintro ⟨hw, ⟨hshows, hb⟩, rfl⟩
      rw [pow_succ] at hw
      have hword := w.isLt
      have hdiv : (BitVec.ofNat 32 (w.toNat / 256)).toNat = w.toNat / 256 := by
        rw [BitVec.toNat_ofNat, Nat.mod_eq_of_lt (by omega)]
      refine ⟨BitVec.ofNat 32 (w.toNat / 256), _, ⟨?_, ?_, rfl⟩, BitVec.ofNat 8 w.toNat, _,
        ⟨hb, rfl⟩, ?_, by omega⟩
      · rw [hdiv]
        omega
      · rwa [hdiv]
      · apply BitVec.eq_of_toNat_eq
        rw [toNat_pushByte (by omega), hdiv, BitVec.toNat_ofNat]
        omega

/-- The magic stands where its bytes do. -/
theorem yields_magic_iff {I : ℕ} {u : Unit} :
    Yields (e.magic k I) m u n ↔ Shows (byteAt e.data) m (magicBytes k I) ∧ m + k = n := by
  induction k generalizing I m with
  | zero => simp [magic, magicBytes]
  | succ k ih =>
    simp only [magic, ok_bind, yields_next, yields_require, ih, magicBytes, shows_cons]
    constructor
    · rintro ⟨b, _, ⟨hb, rfl⟩, _, _, ⟨heven, rfl⟩, _, _, ⟨hodd, rfl⟩, hshows, rfl⟩
      refine ⟨⟨hb.trans ?_, hshows⟩, by omega⟩
      rcases Nat.mod_two_eq_zero_or_one I with hI | hI
      · simpa [hI] using heven
      · simpa [hI] using hodd
    · rintro ⟨⟨hb, hshows⟩, rfl⟩
      refine ⟨_, _, ⟨hb, rfl⟩, (), _, ⟨?_, rfl⟩, (), _, ⟨?_, rfl⟩, hshows, by omega⟩
      all_goals rcases Nat.mod_two_eq_zero_or_one I with hI | hI <;> simp [hI]

theorem yields_fill {s : HeaderString} {len : ℕ} {name : List Byte} :
    Yields (e.fill s len) m name n ↔
      (e.kmalloc s = true ∨ len = 0) ∧ name.length = len ∧ Shows (byteAt e.data) m name ∧
        m + len = n := by
  rw [fill]
  split_ifs with hspace
  · simp only [hspace, true_and]
    exact yields_take
  · simp [hspace]

theorem yields_lastByte {o : Option Byte} {name name' : List Byte} :
    Yields (match o with
      | none => throw HeaderError.fault
      | some last => (do require (last = 0) .invalid; return name : Scan HeaderError _)) m name' n ↔
        o = some 0 ∧ name = name' ∧ m = n := by
  cases o with
  | none => simp
  | some last =>
    simp only [ok_bind, yields_require, yields_pure, Option.some.injEq]
    constructor
    · rintro ⟨_, _, ⟨hlast, rfl⟩, rfl, rfl⟩
      exact ⟨hlast, rfl, rfl⟩
    · rintro ⟨hlast, rfl, rfl⟩
      exact ⟨(), _, ⟨hlast, rfl⟩, rfl, rfl⟩

/-- A string that is not empty stands where its encoding does, and was given space. -/
theorem yields_string {tag : Byte} {s : HeaderString} {name : List Byte} (hne : name ≠ []) :
    Yields (e.string tag s) m name n ↔ e.kmalloc s = true ∧ NulTerminated name ∧
      Shows (byteAt e.data) m (encodeString tag name) ∧
        m + (encodeString tag name).length = n := by
  simp only [string, ok_bind, yields_next, yields_require,
    yields_bigEndian (show 2 ≤ 4 by norm_num), yields_fill, encodeString, shows_cons, shows_append,
    length_beBytes, List.length_cons, List.length_append]
  constructor
  · rintro ⟨_, _, ⟨htag, rfl⟩, _, _, ⟨rfl, rfl⟩, len, _, ⟨hlen, hbytes, rfl⟩, name', _,
      ⟨hspace, hname, hshows, rfl⟩, hend⟩
    obtain ⟨hlast, rfl, rfl⟩ := yields_lastByte.mp hend
    have hlen0 : len ≠ 0 := by
      rintro rfl
      exact hne (List.length_eq_zero_iff.mp hname)
    rw [if_neg hlen0] at hlast
    refine ⟨?_, ⟨by omega, hlast⟩, ⟨htag, ?_, hshows⟩, by omega⟩
    · exact hspace.resolve_right fun h => hlen0 (BitVec.eq_of_toNat_eq h)
    · rwa [hname]
  · rintro ⟨hspace, ⟨hlen, hlast⟩, ⟨htag, hbytes, hshows⟩, rfl⟩
    have hword : (BitVec.ofNat 32 name.length).toNat = name.length := by
      rw [BitVec.toNat_ofNat, Nat.mod_eq_of_lt (by omega)]
    have hlen0 : BitVec.ofNat 32 name.length ≠ 0 := by
      intro h
      have := congrArg BitVec.toNat h
      rw [hword] at this
      exact hne (List.length_eq_zero_iff.mp this)
    refine ⟨_, _, ⟨htag, rfl⟩, (), _, ⟨rfl, rfl⟩, BitVec.ofNat 32 name.length, _,
      ⟨by rw [hword]; omega, by rwa [hword], rfl⟩, name, _,
      ⟨.inl hspace, hword.symm, hshows, rfl⟩, ?_⟩
    exact yields_lastByte.mpr ⟨by rw [if_neg hlen0, hlast], rfl, by rw [hword]; omega⟩

theorem yields_encodeString {tag : Byte} {s : HeaderString} {name : List Byte}
    (hk : e.kmalloc s = true) (hname : NulTerminated name)
    (hshows : Shows (byteAt e.data) m (encodeString tag name)) :
    Yields (e.string tag s) m name (m + (encodeString tag name).length) :=
  (yields_string hname.ne_nil).mpr ⟨hk, hname, hshows, rfl⟩

end HeaderEnv

/-! ## The parser -/

section Encoding

variable (h : BitHeader) (term : Byte)

/-- The index behind the magic, its last byte and the half word. -/
def BitHeader.strings : ℕ :=
  0 + 2 + (h.magicLength.toNat - 1) + 1 + 2

theorem BitHeader.length_encode : (h.encode term).length =
    h.strings + (encodeString 0x61 h.designName).length + (encodeString 0x62 h.partName).length +
      (encodeString 0x63 h.date).length + (encodeString 0x64 h.time).length + 1 + 4 := by
  simp only [encode, strings, List.length_append, List.length_cons, length_beBytes,
    length_magicBytes]
  omega

/-- An encoding at the start, part by part. -/
theorem BitHeader.shows_encode {data : ℕ → Byte} : Shows data 0 (h.encode term) ↔
    Shows data 0 (beBytes 2 h.magicLength.toNat) ∧
    Shows data (0 + 2) (magicBytes (h.magicLength.toNat - 1) 0) ∧
    data (0 + 2 + (h.magicLength.toNat - 1)) = term ∧
    Shows data (0 + 2 + (h.magicLength.toNat - 1) + 1) (beBytes 2 1) ∧
    Shows data h.strings (encodeString 0x61 h.designName) ∧
    Shows data (h.strings + (encodeString 0x61 h.designName).length)
      (encodeString 0x62 h.partName) ∧
    Shows data (h.strings + (encodeString 0x61 h.designName).length +
      (encodeString 0x62 h.partName).length) (encodeString 0x63 h.date) ∧
    Shows data (h.strings + (encodeString 0x61 h.designName).length +
      (encodeString 0x62 h.partName).length + (encodeString 0x63 h.date).length)
      (encodeString 0x64 h.time) ∧
    Shows data (h.strings + (encodeString 0x61 h.designName).length +
      (encodeString 0x62 h.partName).length + (encodeString 0x63 h.date).length +
      (encodeString 0x64 h.time).length) (0x65 :: beBytes 4 h.bitstreamLength.toNat) := by
  simp only [encode, strings, shows_append, length_beBytes, length_magicBytes]
  rw [shows_cons, shows_append]
  simp only [shows_append, length_beBytes]

end Encoding

theorem magicTurns_eq {w : U32} (h : w ≠ 0) : (w - 1).toNat = w.toNat - 1 := by
  bv_omega

/-- A header is accepted where an encoding of it stands, if there is space for its strings. -/
theorem yields_of_encode {e : HeaderEnv} {h : BitHeader} {term : Byte}
    (hk : ∀ s, e.kmalloc s = true) (hwf : h.WellFormed)
    (hshows : Shows (byteAt e.data) 0 (h.encode term)) :
    Yields (bitstreamParseHeader e) 0 h (h.encode term).length := by
  have hmagic : h.magicLength ≠ 0 := fun h0 => by simpa [h0] using hwf.magicLength.1
  have hturns := magicTurns_eq hmagic
  obtain ⟨hwBytes, hm, hterm, hone, hda, hdb, hdc, hdd, htag, hlen⟩ :=
    (BitHeader.shows_encode h term).mp hshows
  simp only [bitstreamParseHeader, ok_bind, HeaderEnv.yields_next, yields_require, yields_index,
    yields_pure, HeaderEnv.yields_bigEndian (show 2 ≤ 4 by norm_num),
    HeaderEnv.yields_bigEndian (le_refl 4), HeaderEnv.yields_magic_iff]
  refine ⟨h.magicLength, _, ⟨hwf.magicLength.2, hwBytes, rfl⟩, (), _, ⟨by rwa [hturns], rfl⟩,
    term, _, ⟨by rwa [hturns], rfl⟩, 1, _, ⟨by decide, by rwa [hturns], rfl⟩, (), _, ⟨rfl, rfl⟩, ?_⟩
  rw [hturns]
  refine ⟨_, _, HeaderEnv.yields_encodeString (hk _) hwf.designName hda,
    _, _, HeaderEnv.yields_encodeString (hk _) hwf.partName hdb,
    _, _, HeaderEnv.yields_encodeString (hk _) hwf.date hdc,
    _, _, HeaderEnv.yields_encodeString (hk _) hwf.time hdd,
    0x65, _, ⟨htag, rfl⟩, (), _, ⟨rfl, rfl⟩, h.bitstreamLength, _,
    ⟨h.bitstreamLength.isLt, hlen, rfl⟩, _, _, ⟨rfl, rfl⟩, ?_, (h.length_encode term).symm⟩
  have hlength : BitVec.ofNat 32 (h.encode term).length = h.headerLength := by
    rw [← hwf.headerLength term, BitVec.ofNat_toNat, BitVec.setWidth_eq]
  rw [BitHeader.length_encode] at hlength
  obtain ⟨hl, bl, a, b, c, d, w⟩ := h
  rw [BitHeader.mk.injEq]
  exact ⟨hlength, rfl, rfl, rfl, rfl, rfl, rfl⟩

/-- Where a header with four strings that are not empty is accepted, an encoding of it stands. -/
theorem encode_of_yields {e : HeaderEnv} {h : BitHeader} {n : ℕ} (ha : h.designName ≠ [])
    (hb : h.partName ≠ []) (hc : h.date ≠ []) (hd : h.time ≠ [])
    (hparse : Yields (bitstreamParseHeader e) 0 h n) :
    (∀ s, e.kmalloc s = true) ∧ h.WellFormed ∧
      ∃ term, Shows (byteAt e.data) 0 (h.encode term) ∧ (h.encode term).length = n := by
  have hlength := yields_bitstreamParseHeader hparse
  have hmagic := magicLength_ne_zero_of_yields hparse
  obtain ⟨hl, bl, na, nb, nc, nd, ml⟩ := h
  dsimp only at ha hb hc hd hlength hmagic
  simp only [bitstreamParseHeader, ok_bind, HeaderEnv.yields_next, yields_require, yields_index,
    yields_pure, HeaderEnv.yields_bigEndian (show 2 ≤ 4 by norm_num),
    HeaderEnv.yields_bigEndian (le_refl 4), HeaderEnv.yields_magic_iff,
    BitHeader.mk.injEq] at hparse
  obtain ⟨w, _, ⟨hw, hwBytes, rfl⟩, _, _, ⟨hm, rfl⟩, term, _, ⟨hterm, rfl⟩, _, _,
    ⟨-, hone, rfl⟩, _, _, ⟨rfl, rfl⟩, hparse⟩ := hparse
  obtain ⟨a, ia, hda, b, ib, hdb, c, ic, hdc, d, id, hdd, _, _, ⟨htag, rfl⟩, hparse⟩ := hparse
  obtain ⟨_, _, ⟨rfl, rfl⟩, len, _, ⟨-, hlen, rfl⟩, _, _, ⟨rfl, rfl⟩, heq, rfl⟩ := hparse
  obtain ⟨rfl, rfl, rfl, rfl, rfl, rfl, rfl⟩ := heq
  obtain ⟨hka, hna, hsa, rfl⟩ := (HeaderEnv.yields_string ha).mp hda
  obtain ⟨hkb, hnb, hsb, rfl⟩ := (HeaderEnv.yields_string hb).mp hdb
  obtain ⟨hkc, hnc, hsc, rfl⟩ := (HeaderEnv.yields_string hc).mp hdc
  obtain ⟨hkd, hnd, hsd, rfl⟩ := (HeaderEnv.yields_string hd).mp hdd
  have hturns := magicTurns_eq hmagic
  rw [hturns] at hm hterm hone hsa hsb hsc hsd htag hlen
  have hone1 : 1 ≤ w.toNat := by bv_omega
  refine ⟨fun s => by cases s <;> assumption,
    ⟨⟨hone1, by omega⟩, hna, hnb, hnc, hnd, fun t => hlength.trans ?_⟩, term, ?_, ?_⟩
  · simp only [BitHeader.length_encode, BitHeader.strings, hturns]
  · exact (BitHeader.shows_encode _ _).mpr
      ⟨hwBytes, hm, hterm, hone, hsa, hsb, hsc, hsd, htag, hlen⟩
  · simp only [BitHeader.length_encode, BitHeader.strings, hturns]

/-- Both directions, for every buffer and whatever follows the header in it. Where an encoding of a
well-formed header stands, exactly that header is accepted and exactly its encoding is read, if and
only if there is space for its strings. And where a header with four strings that are not empty is
accepted, what was read is an encoding of it, up to the byte that ends the magic. -/
theorem header_round_trip (e : HeaderEnv) :
    (∀ (h : BitHeader) (term : Byte), h.WellFormed → Shows (byteAt e.data) 0 (h.encode term) →
      (Yields (bitstreamParseHeader e) 0 h (h.encode term).length ↔ ∀ s, e.kmalloc s = true)) ∧
    ∀ (h : BitHeader) (n : ℕ), Yields (bitstreamParseHeader e) 0 h n → h.designName ≠ [] →
      h.partName ≠ [] → h.date ≠ [] → h.time ≠ [] →
        h.WellFormed ∧ ∃ term, Shows (byteAt e.data) 0 (h.encode term) ∧
          (h.encode term).length = n := by
  refine ⟨fun h term hwf hshows => ⟨fun hparse => ?_, fun hk => yields_of_encode hk hwf hshows⟩,
    fun h n hparse ha hb hc hd => (encode_of_yields ha hb hc hd hparse).2⟩
  exact (encode_of_yields hwf.designName.ne_nil hwf.partName.ne_nil hwf.date.ne_nil hwf.time.ne_nil
    hparse).1

/-- A header with a magic of nine bytes, as the tools write it. -/
def toolHeader : BitHeader where
  headerLength := 38
  bitstreamLength := 0x1234
  designName := [0x74, 0x00]
  partName := [0x37, 0x00]
  date := [0x31, 0x00]
  time := [0x32, 0x00]
  magicLength := 9

theorem toolHeader_wellFormed : toolHeader.WellFormed where
  magicLength := by decide
  designName := ⟨by decide, rfl⟩
  partName := ⟨by decide, rfl⟩
  date := ⟨by decide, rfl⟩
  time := ⟨by decide, rfl⟩
  headerLength _ := rfl

/-- A buffer that starts with it. -/
def toolBuffer : HeaderEnv where
  kmalloc _ := true
  stray _ := none
  data n := (toolHeader.encode 0).getD n.toNat 0xff

theorem header_round_trip_tool :
    Yields (bitstreamParseHeader toolBuffer) 0 toolHeader 38 ∧
      ∃ term, Shows (byteAt toolBuffer.data) 0 (toolHeader.encode term) := by
  have hparse : Yields (bitstreamParseHeader toolBuffer) 0 toolHeader 38 :=
    ((header_round_trip toolBuffer).1 toolHeader 0 toolHeader_wellFormed (by decide +kernel)).mpr
      fun _ => rfl
  obtain ⟨-, term, hshows, -⟩ := (header_round_trip toolBuffer).2 toolHeader 38 hparse (by decide)
    (by decide) (by decide) (by decide)
  exact ⟨hparse, term, hshows⟩

end Wimi
