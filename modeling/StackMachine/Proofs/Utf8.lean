import StackMachine.Text.Utf8

/-!
# Decoding undoes encoding

A character is encoded by a leading byte, which tells how many bytes follow and carries the
highest bits, and by as many bytes more, which carry six bits each. The decoder takes one byte
at a time and remembers the bits of the character that is still unfinished, so the proof goes
along the bytes of one character: the leading byte leaves it unfinished, each byte that follows
is admitted, and the last one finishes it.

The second byte is admitted in a narrower range after some leading bytes. What this range leaves
out are exactly the numbers that a shorter encoding has and those that no character has.

## Main results

* `Utf8.decodeAfter_encodeChar`: the bytes of a character decode to it, whatever follows.
* `Utf8.decode_encode`: **every text reads back from its bytes.**
-/

namespace StackMachine.Utf8

/-- The number of a byte, with the bound as a numeral for the arithmetic below. -/
theorem toNat_byte {n : Nat} (h : n < 256) : (UInt8.ofNat n).toNat = n :=
  UInt8.toNat_ofNat_of_lt' h

/-! ### Bytes that follow -/

/-- An unfinished character may go on with a byte that carries the six bits `k`. -/
structure Partial.Admits (p : Partial) (k : Nat) : Prop where
  bits : k < 64
  least : p.least.toNat ≤ k + 128
  greatest : k + 128 ≤ p.greatest.toNat

/-- After the second byte the range is the full one. -/
theorem Partial.admits_full {missing bits k : Nat} (h : k < 64) :
    Partial.Admits ⟨missing, 0x80, 0xBF, bits⟩ k := by
  refine ⟨h, ?_, ?_⟩
  · show 128 ≤ k + 128
    omega
  · show k + 128 ≤ 191
    omega

variable {p : Partial} {k : Nat}

/-- A byte that is admitted lies within the bounds of what is expected. -/
theorem Partial.Admits.within (h : p.Admits k) :
    p.least ≤ UInt8.ofNat (k + 128) ∧ UInt8.ofNat (k + 128) ≤ p.greatest := by
  obtain ⟨hbits, hleast, hgreatest⟩ := h
  have hbyte : (UInt8.ofNat (k + 128)).toNat = k + 128 := toNat_byte (by omega)
  rw [UInt8.le_iff_toNat_le, UInt8.le_iff_toNat_le, hbyte]
  exact ⟨hleast, hgreatest⟩

/-- The bits of an unfinished character, with six more behind them. -/
theorem Partial.Admits.bits_eq (h : p.Admits k) :
    p.bits * 64 + ((UInt8.ofNat (k + 128)).toNat - 0x80) = p.bits * 64 + k := by
  have hbits := h.bits
  rw [toNat_byte (by omega)]
  omega

/-- The last byte finishes the character. -/
theorem decodeAfter_last (h : p.Admits k) (hmissing : p.missing = 0) (rest : List UInt8) :
    decodeAfter (some p) (UInt8.ofNat (k + 128) :: rest) =
      Char.ofNat (p.bits * 64 + k) :: decodeAfter none rest := by
  simp only [decodeAfter, Option.elim, Partial.advance, if_pos h.within, hmissing, h.bits_eq]
  rfl

/-- A byte before the last one leaves the character unfinished. -/
theorem decodeAfter_inner {missing : Nat} (h : p.Admits k) (hmissing : p.missing = missing + 1)
    (rest : List UInt8) :
    decodeAfter (some p) (UInt8.ofNat (k + 128) :: rest) =
      decodeAfter (some ⟨missing, 0x80, 0xBF, p.bits * 64 + k⟩) rest := by
  simp only [decodeAfter, Option.elim, Partial.advance, if_pos h.within, hmissing, h.bits_eq]
  rfl

/-! ### Leading bytes -/

/-- A leading byte begins a character of which it carries the bits `q`, and admits the six
bits `k` next. -/
structure Leads (n missing q k : Nat) : Prop where
  high : 128 ≤ n ∧ n < 256
  begins : ∃ p, begins? (UInt8.ofNat n) = some p ∧ p.missing = missing ∧ p.bits = q ∧ p.Admits k

/-- The leading byte of two. The bits `0` and `1` are left to a single byte. -/
theorem leads_two {q k : Nat} (hq : 2 ≤ q ∧ q < 32) (hk : k < 64) : Leads (q + 192) 0 q k := by
  refine ⟨by omega, ⟨0, 0x80, 0xBF, q⟩, ?_, rfl, rfl, Partial.admits_full hk⟩
  have hbyte : (UInt8.ofNat (q + 192)).toNat = q + 192 := toNat_byte (by omega)
  simp only [begins?, hbyte]
  rw [if_pos (by omega), Nat.add_sub_cancel]

/-- The leading byte of three. After the bits `0` a short number is left out, and after `13`
the surrogates are. -/
theorem leads_three {q k : Nat} (hq : q < 16) (hk : k < 64) (hshort : q = 0 → 32 ≤ k)
    (hsurrogate : q = 13 → k < 32) : Leads (q + 224) 1 q k := by
  refine ⟨by omega, ?_⟩
  have hbyte : (UInt8.ofNat (q + 224)).toNat = q + 224 := toNat_byte (by omega)
  simp only [begins?, hbyte]
  rw [if_neg (by omega)]
  split
  next h =>
    obtain rfl : q = 0 := by omega
    exact ⟨_, rfl, rfl, rfl, hk, Nat.add_le_add_right (hshort rfl) 128, (by omega : k + 128 ≤ 191)⟩
  next h =>
    split
    next h' =>
      obtain rfl : q = 13 := by omega
      have hlow := hsurrogate rfl
      exact ⟨_, rfl, rfl, rfl, hk, (by omega : 128 ≤ k + 128), (by omega : k + 128 ≤ 159)⟩
    next h' =>
      rw [if_pos (by omega), Nat.add_sub_cancel]
      exact ⟨_, rfl, rfl, rfl, Partial.admits_full hk⟩

/-- The leading byte of four. After the bits `0` a short number is left out, and after `4`
what lies beyond the last character. -/
theorem leads_four {q k : Nat} (hq : q < 5) (hk : k < 64) (hshort : q = 0 → 16 ≤ k)
    (hbeyond : q = 4 → k < 16) : Leads (q + 240) 2 q k := by
  refine ⟨by omega, ?_⟩
  have hbyte : (UInt8.ofNat (q + 240)).toNat = q + 240 := toNat_byte (by omega)
  simp only [begins?, hbyte]
  rw [if_neg (by omega), if_neg (by omega), if_neg (by omega), if_neg (by omega)]
  split
  next h =>
    obtain rfl : q = 0 := by omega
    exact ⟨_, rfl, rfl, rfl, hk, Nat.add_le_add_right (hshort rfl) 128, (by omega : k + 128 ≤ 191)⟩
  next h =>
    split
    next h' =>
      obtain rfl : q = 4 := by omega
      have hlow := hbeyond rfl
      exact ⟨_, rfl, rfl, rfl, hk, (by omega : 128 ≤ k + 128), (by omega : k + 128 ≤ 143)⟩
    next h' =>
      rw [if_pos (by omega), Nat.add_sub_cancel]
      exact ⟨_, rfl, rfl, rfl, Partial.admits_full hk⟩

/-- A leading byte leaves its character unfinished. -/
theorem Leads.exists_pending {n missing q : Nat} (h : Leads n missing q k) :
    ∃ p : Partial, p.missing = missing ∧ p.bits = q ∧ p.Admits k ∧
      ∀ rest, decodeAfter none (UInt8.ofNat n :: rest) = decodeAfter (some p) rest := by
  obtain ⟨hhigh, p, hbegins, hmissing, hbits, hadmits⟩ := h
  refine ⟨p, hmissing, hbits, hadmits, ?_⟩
  intro rest
  have hbyte : ¬UInt8.ofNat n < 0x80 := by
    rw [UInt8.lt_iff_toNat_lt, toNat_byte hhigh.2]
    exact Nat.not_lt.2 hhigh.1
  simp only [decodeAfter, Option.elim, start, if_neg hbyte, hbegins]
  rfl

/-! ### Characters and texts -/

/-- **The bytes of a character decode to it**, whatever follows them. -/
theorem decodeAfter_encodeChar (c : Char) (rest : List UInt8) :
    decodeAfter none (String.utf8EncodeChar c ++ rest) = c :: decodeAfter none rest := by
  obtain ⟨v, hv⟩ : ∃ v, c.toNat = v := ⟨_, rfl⟩
  have hvalue : c.val.toNat = v := hv
  have hchar : Char.ofNat v = c := by rw [← hv, Char.ofNat_toNat]
  have hvalid : v < 0xD800 ∨ 0xDFFF < v ∧ v < 0x110000 := by
    rw [← hvalue]
    exact c.valid
  -- One case for each length of an encoding. That the leading byte admits the second one is
  -- where the bounds of the length and the gap of the surrogates enter.
  simp only [String.utf8EncodeChar, hvalue]
  split
  next hone =>
    have hbyte : UInt8.ofNat v < 0x80 := by
      rw [UInt8.lt_iff_toNat_lt, toNat_byte (by omega)]
      exact Nat.lt_succ_of_le hone
    have hstart : start (UInt8.ofNat v) = ([c], none) := by
      rw [start, if_pos hbyte, toNat_byte (by omega), hchar]
    simp only [List.singleton_append, decodeAfter, Option.elim, hstart]
  next hone =>
    split
    next htwo =>
      obtain ⟨p, hmissing, hbits, hadmits, hlead⟩ :=
        (leads_two (q := v / 64 % 32) (k := v % 64) (by omega) (by omega)).exists_pending
      have hcode : p.bits * 64 + v % 64 = v := by omega
      simp only [List.cons_append, List.nil_append]
      rw [hlead, decodeAfter_last hadmits hmissing, hcode, hchar]
    next htwo =>
      split
      next hthree =>
        obtain ⟨p, hmissing, hbits, hadmits, hlead⟩ :=
          (leads_three (q := v / 4096 % 16) (k := v / 64 % 64) (by omega) (by omega) (by omega)
            (by omega)).exists_pending
        have hcode : (p.bits * 64 + v / 64 % 64) * 64 + v % 64 = v := by omega
        simp only [List.cons_append, List.nil_append]
        rw [hlead, decodeAfter_inner hadmits hmissing,
          decodeAfter_last (Partial.admits_full (by omega)) rfl, hcode, hchar]
      next hthree =>
        obtain ⟨p, hmissing, hbits, hadmits, hlead⟩ :=
          (leads_four (q := v / 262144 % 8) (k := v / 4096 % 64) (by omega) (by omega) (by omega)
            (by omega)).exists_pending
        have hcode : ((p.bits * 64 + v / 4096 % 64) * 64 + v / 64 % 64) * 64 + v % 64 = v := by
          omega
        simp only [List.cons_append, List.nil_append]
        rw [hlead, decodeAfter_inner hadmits hmissing,
          decodeAfter_inner (Partial.admits_full (by omega)) rfl,
          decodeAfter_last (Partial.admits_full (by omega)) rfl, hcode, hchar]

/-- **Every text reads back from its bytes.** -/
theorem decode_encode (text : String) : decode (encode text) = text := by
  have hchars : ∀ cs : List Char, decodeAfter none (cs.flatMap String.utf8EncodeChar) = cs := by
    intro cs
    induction cs with
    | nil => rfl
    | cons c cs ih => rw [List.flatMap_cons, decodeAfter_encodeChar, ih]
  rw [decode, encode, hchars, String.ofList_toList]

end StackMachine.Utf8
