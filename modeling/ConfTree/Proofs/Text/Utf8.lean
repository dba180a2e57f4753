import ConfTree.Text.Utf8

/-!
# Texts written as bytes are read back

The leading byte of a character promises how many bytes follow and bounds the
first of them. A character keeps to these bounds, because it is written in the
shortest form, is no surrogate and is not above the last code point.

1. `lead?_two`, `lead?_three`, `lead?_four`, `follow_ofNat`: leading and following
   bytes.
2. `first_one` to `first_four`: characters of one to four bytes.
3. `decode_encode`: every text is read back from its bytes.
4. `decode_append_ascii`: no character reaches over a byte that is one by itself.
5. `count_decode`: line ends are neither added nor lost.
6. `encode_lt_encode`: bytes are in the order of the characters.
-/

namespace ConfTree.Utf8

/-! ## 1. Single bytes -/

theorem toNat_ofNat_add {n low : Nat} (h : n + low < 256) :
    (UInt8.ofNat (n + low)).toNat = n + low := by
  rw [UInt8.toNat_ofNat', Nat.mod_eq_of_lt h]

/-! What a leading byte promises depends on its number. -/

theorem lead?_two {b : UInt8} (hlow : 0xC2 ≤ b.toNat) (hhigh : b.toNat < 0xE0) :
    lead? b = some { more := 1, bits := b.toNat - 0xC0 } := by
  have h1 : ¬ b < 0xC2 := by simpa [UInt8.lt_iff_toNat_lt] using hlow
  have h2 : b < 0xE0 := by simpa [UInt8.lt_iff_toNat_lt] using hhigh
  rw [lead?, if_neg h1, if_pos h2]

theorem lead?_three {b : UInt8} (hlow : 0xE0 ≤ b.toNat) (hhigh : b.toNat < 0xF0) :
    lead? b = some {
      more := 2
      bits := b.toNat - 0xE0
      low := if b.toNat = 0xE0 then 0xA0 else 0x80
      high := if b.toNat = 0xED then 0x9F else 0xBF } := by
  simp only [lead?, UInt8.lt_iff_toNat_lt, ← UInt8.toNat_inj]
  simp only [UInt8.reduceToNat]
  grind

theorem lead?_four {b : UInt8} (hlow : 0xF0 ≤ b.toNat) (hhigh : b.toNat ≤ 0xF4) :
    lead? b = some {
      more := 3
      bits := b.toNat - 0xF0
      low := if b.toNat = 0xF0 then 0x90 else 0x80
      high := if b.toNat = 0xF4 then 0x8F else 0xBF } := by
  simp only [lead?, UInt8.lt_iff_toNat_lt, ← UInt8.toNat_inj]
  simp only [UInt8.reduceToNat]
  grind

/-- A byte that begins a character of several bytes promises what follows it. -/
theorem first_of_lead {b : UInt8} {l : Lead} (rest : List UInt8) (hb : 0x80 ≤ b.toNat)
    (h : lead? b = some l) : first b rest = follow l.more l.bits l.low l.high rest := by
  have hascii : ¬ b < 0x80 := by simpa [UInt8.lt_iff_toNat_lt] using hb
  rw [first, if_neg hascii, h]

/-- A following byte adds its six bits. -/
theorem follow_ofNat {more bits payload : Nat} {low high : UInt8} (rest : List UInt8)
    (hpayload : payload < 64) (hlow : low.toNat ≤ payload + 0x80)
    (hhigh : payload + 0x80 ≤ high.toNat) :
    follow (more + 1) bits low high (UInt8.ofNat (payload + 0x80) :: rest) =
      follow more (bits * 64 + payload) 0x80 0xBF rest := by
  have hb : (UInt8.ofNat (payload + 0x80)).toNat = payload + 0x80 := toNat_ofNat_add (by omega)
  rw [follow, if_pos]
  · rw [hb, Nat.add_sub_cancel]
  · rw [UInt8.le_iff_toNat_le, UInt8.le_iff_toNat_le, hb]
    exact ⟨hlow, hhigh⟩

/-- A following byte on which the leading one puts no bound. -/
theorem follow_tail {more bits payload : Nat} (rest : List UInt8) (hpayload : payload < 64) :
    follow (more + 1) bits 0x80 0xBF (UInt8.ofNat (payload + 0x80) :: rest) =
      follow more (bits * 64 + payload) 0x80 0xBF rest := by
  refine follow_ofNat rest hpayload (Nat.le_add_left _ _) ?_
  show payload + 0x80 ≤ 0xBF
  omega

/-! ## 2. Characters -/

/-! The number of a character decides how many bytes it takes. -/

theorem first_one {v : Nat} (rest : List UInt8) (h : v < 0x80) :
    first (UInt8.ofNat v) rest = (Char.ofNat v, rest) := by
  have hb : (UInt8.ofNat v).toNat = v := by
    rw [UInt8.toNat_ofNat', Nat.mod_eq_of_lt (by omega)]
  have hascii : UInt8.ofNat v < 0x80 := by
    rw [UInt8.lt_iff_toNat_lt, hb]
    exact h
  rw [first, if_pos hascii, hb]

theorem first_two {v : Nat} (rest : List UInt8) (hlow : 0x80 ≤ v) (hhigh : v < 0x800) :
    first (UInt8.ofNat (v / 64 % 0x20 + 0xC0)) (UInt8.ofNat (v % 64 + 0x80) :: rest) =
      (Char.ofNat v, rest) := by
  have hb : (UInt8.ofNat (v / 64 % 0x20 + 0xC0)).toNat = v / 64 + 0xC0 := by
    rw [toNat_ofNat_add (by omega)]
    omega
  rw [first_of_lead _ (by omega) (lead?_two (by omega) (by omega)), hb]
  dsimp only
  rw [follow_tail _ (by omega), follow]
  congr 2
  omega

theorem first_three {v : Nat} (rest : List UInt8) (hlow : 0x800 ≤ v) (hhigh : v < 0x10000)
    (hvalid : v < 0xD800 ∨ 0xDFFF < v) :
    first (UInt8.ofNat (v / 4096 % 0x10 + 0xE0))
        (UInt8.ofNat (v / 64 % 64 + 0x80) :: UInt8.ofNat (v % 64 + 0x80) :: rest) =
      (Char.ofNat v, rest) := by
  have hb : (UInt8.ofNat (v / 4096 % 0x10 + 0xE0)).toNat = v / 4096 + 0xE0 := by
    rw [toNat_ofNat_add (by omega)]
    omega
  rw [first_of_lead _ (by omega) (lead?_three (by omega) (by omega)), hb]
  dsimp only
  rw [follow_ofNat _ (by omega), follow_tail _ (by omega), follow]
  · congr 2
    omega
  · split
    · show 0xA0 ≤ _
      omega
    · exact Nat.le_add_left _ _
  · split
    · show _ ≤ 0x9F
      omega
    · show _ ≤ 0xBF
      omega

theorem first_four {v : Nat} (rest : List UInt8) (hlow : 0x10000 ≤ v) (hhigh : v < 0x110000) :
    first (UInt8.ofNat (v / 262144 % 0x08 + 0xF0))
        (UInt8.ofNat (v / 4096 % 64 + 0x80) :: UInt8.ofNat (v / 64 % 64 + 0x80) ::
          UInt8.ofNat (v % 64 + 0x80) :: rest) =
      (Char.ofNat v, rest) := by
  have hb : (UInt8.ofNat (v / 262144 % 0x08 + 0xF0)).toNat = v / 262144 + 0xF0 := by
    rw [toNat_ofNat_add (by omega)]
    omega
  rw [first_of_lead _ (by omega) (lead?_four (by omega) (by omega)), hb]
  dsimp only
  rw [follow_ofNat _ (by omega), follow_tail _ (by omega), follow_tail _ (by omega), follow]
  · congr 2
    omega
  · split
    · show 0x90 ≤ _
      omega
    · exact Nat.le_add_left _ _
  · split
    · show _ ≤ 0x8F
      omega
    · show _ ≤ 0xBF
      omega

/-! ## 3. Texts -/

/-- The first character of what is written is the one that was written first. -/
theorem first_encodeChar (c : Char) (rest : List UInt8) :
    ∃ b behind, String.utf8EncodeChar c ++ rest = b :: behind ∧ first b behind = (c, rest) := by
  have hback : Char.ofNat c.val.toNat = c := Char.ofNat_toNat c
  have hvalid : c.val.toNat < 0xD800 ∨ 0xDFFF < c.val.toNat ∧ c.val.toNat < 0x110000 := c.valid
  unfold String.utf8EncodeChar
  generalize c.val.toNat = v at *
  subst hback
  dsimp only
  split
  · exact ⟨_, _, rfl, first_one rest (by omega)⟩
  · split
    · exact ⟨_, _, rfl, first_two rest (by omega) (by omega)⟩
    · split
      · exact ⟨_, _, rfl, first_three rest (by omega) (by omega) (by omega)⟩
      · exact ⟨_, _, rfl, first_four rest (by omega) (by omega)⟩

/-- Every text is read back from its bytes. -/
theorem decode_encode (text : List Char) : decode (encode text) = text := by
  induction text with
  | nil => exact decode_nil
  | cons c text ih =>
    obtain ⟨b, behind, hbytes, hfirst⟩ := first_encodeChar c (encode text)
    have hencode : encode (c :: text) = b :: behind := hbytes
    rw [hencode, decode_cons, hfirst]
    exact congrArg (c :: ·) ih

/-! ## 4. Cuts -/

section Cuts

variable {ascii : UInt8} (hascii : ascii < 0x80) (behind : List UInt8)
include hascii

/-- A byte that is a character by itself does not follow another one. -/
theorem follow_append_ascii (more bits : Nat) {low : UInt8} (high : UInt8) (hlow : 0x80 ≤ low)
    (rest : List UInt8) :
    follow more bits low high (rest ++ ascii :: behind) =
      ((follow more bits low high rest).1,
        (follow more bits low high rest).2 ++ ascii :: behind) := by
  fun_induction follow more bits low high rest with
  | case1 => rw [follow]
  | case2 =>
    rw [List.nil_append, follow, if_neg]
    rintro ⟨hle, _⟩
    exact UInt8.lt_irrefl _ (UInt8.lt_of_lt_of_le hascii (UInt8.le_trans hlow hle))
  | case3 _ _ _ _ _ _ hfit ih =>
    rw [List.cons_append, follow, if_pos hfit]
    exact ih (UInt8.le_refl _)
  | case4 _ _ _ _ _ _ hfit =>
    rw [List.cons_append, follow, if_neg hfit]

omit hascii in
theorem le_low_of_lead? {b : UInt8} {l : Lead} (h : lead? b = some l) : 0x80 ≤ l.low := by
  have hlow : (0x80 : UInt8) ≤ 0x80 ∧ (0x80 : UInt8) ≤ 0x90 ∧ (0x80 : UInt8) ≤ 0xA0 := by decide
  grind [lead?]

theorem first_append_ascii (b : UInt8) (rest : List UInt8) :
    first b (rest ++ ascii :: behind) =
      ((first b rest).1, (first b rest).2 ++ ascii :: behind) := by
  unfold first
  split
  · rfl
  · split
    · rfl
    · next l hlead => exact follow_append_ascii hascii behind _ _ _ (le_low_of_lead? hlead) rest

/-- No character reaches over a byte that is one by itself. -/
theorem decode_append_ascii (front : List UInt8) :
    decode (front ++ ascii :: behind) =
      decode front ++ Char.ofNat ascii.toNat :: decode behind := by
  induction front using decode_induction with
  | nil => rw [List.nil_append, decode_cons, first, if_pos hascii, decode_nil, List.nil_append]
  | cons b rest ih =>
    rw [List.cons_append, decode_cons, first_append_ascii hascii, ih, decode_cons]
    rfl

end Cuts

/-! ## 5. Line ends -/

theorem ofNat_eq_line {n : Nat} (h : Char.ofNat n = '\n') : n = 10 := by
  by_cases hvalid : n.isValidChar
  · have hchar : Char.ofNat n = Char.ofNatAux n hvalid := dif_pos hvalid
    exact congrArg Char.toNat (hchar.symm.trans h)
  · have hchar : Char.ofNat n = '\x00' := dif_neg hvalid
    exact absurd (hchar.symm.trans h) (by decide)

theorem replacement_ne_line : replacement ≠ '\n' := by decide

/-- No line end is among the bytes that follow a leading one. -/
theorem count_follow (more bits : Nat) {low : UInt8} (high : UInt8) (hlow : 0x80 ≤ low)
    (rest : List UInt8) :
    (follow more bits low high rest).2.count 0x0A = rest.count 0x0A := by
  fun_induction follow more bits low high rest with
  | case1 | case2 | case4 => rfl
  | case3 _ _ _ _ b _ hfit ih =>
    have hne : b ≠ 0x0A := by
      rintro rfl
      exact absurd (UInt8.le_trans hlow hfit.1) (by decide)
    rw [ih (UInt8.le_refl _), List.count_cons_of_ne hne]

/-- The bits of a leading byte and the least byte behind it are enough to keep what is
read away from the characters of one byte. -/
def IsLong (more bits : Nat) (low : UInt8) : Prop :=
  0x80 ≤ bits ∨ 0 < more ∧ 2 ≤ bits ∨ 1 < more ∧ (0 < bits ∨ 0x82 ≤ low.toNat)

/-- No line end is read from several bytes. -/
theorem follow_ne_line {more bits : Nat} {low high : UInt8} {rest : List UInt8}
    (h : IsLong more bits low) : (follow more bits low high rest).1 ≠ '\n' := by
  fun_induction follow more bits low high rest with
  | case1 bits =>
    intro hline
    have hbits := ofNat_eq_line hline
    unfold IsLong at h
    omega
  | case2 | case4 => exact replacement_ne_line
  | case3 more bits low high b rest hfit ih =>
    refine ih ?_
    have hb := UInt8.le_iff_toNat_le.mp hfit.1
    unfold IsLong at h ⊢
    omega

theorem isLong_of_lead? {b : UInt8} {l : Lead} (h : lead? b = some l) :
    IsLong l.more l.bits l.low := by
  simp only [lead?, UInt8.lt_iff_toNat_lt, ← UInt8.toNat_inj, UInt8.reduceToNat] at h
  repeat' split at h
  all_goals cases h
  all_goals
    simp only [IsLong, UInt8.reduceToNat]
    omega

/-- A line end is one byte, and that byte is nothing else. -/
theorem first_eq_line_iff (b : UInt8) (rest : List UInt8) :
    (first b rest).1 = '\n' ↔ b = 0x0A := by
  unfold first
  split
  · constructor
    · intro h
      exact UInt8.toNat_inj.mp (ofNat_eq_line h)
    · rintro rfl
      rfl
  · next hascii =>
    have hne : b ≠ 0x0A := by
      rintro rfl
      exact hascii (by decide)
    refine iff_of_false ?_ hne
    split
    · exact replacement_ne_line
    · next l hlead => exact follow_ne_line (isLong_of_lead? hlead)

theorem count_first (b : UInt8) (rest : List UInt8) :
    (first b rest).2.count 0x0A = rest.count 0x0A := by
  unfold first
  split
  · rfl
  · split
    · rfl
    · next l hlead => exact count_follow _ _ _ (le_low_of_lead? hlead) rest

/-- Whatever the bytes are, reading them as text neither adds line ends nor loses any. -/
theorem count_decode (bytes : List UInt8) : (decode bytes).count '\n' = bytes.count 0x0A := by
  induction bytes using decode_induction with
  | nil => rw [decode_nil, List.count_nil, List.count_nil]
  | cons b rest ih =>
    have hline : ((first b rest).1 == '\n') = (b == 0x0A) := by
      rw [Bool.eq_iff_iff, beq_iff_eq, beq_iff_eq]
      exact first_eq_line_iff b rest
    rw [decode_cons, List.count_cons, List.count_cons, ih, count_first, hline]

/-! ## 6. The order of bytes -/

section Order

variable {v w : Nat} {x y : List UInt8}

/-- Bytes are compared one after the other, by their numbers. -/
theorem cons_lt_cons {n m : Nat} (hn : n < 256) (hm : m < 256) (h : n < m ∨ n = m ∧ x < y) :
    UInt8.ofNat n :: x < UInt8.ofNat m :: y := by
  rw [List.cons_lt_cons_iff]
  rcases h with h | ⟨rfl, h⟩
  · refine .inl ?_
    rwa [UInt8.lt_iff_toNat_lt, UInt8.toNat_ofNat', UInt8.toNat_ofNat', Nat.mod_eq_of_lt hn,
      Nat.mod_eq_of_lt hm]
  · exact .inr ⟨rfl, h⟩

/-! Of numbers that begin alike, the following bytes are in the order of the numbers. -/

theorem follow_one_lt (h : v < w) (heq : v / 64 = w / 64) :
    UInt8.ofNat (v % 64 + 0x80) :: x < UInt8.ofNat (w % 64 + 0x80) :: y :=
  cons_lt_cons (by omega) (by omega) (.inl (by omega))

theorem follow_two_lt (h : v < w) (heq : v / 4096 = w / 4096) :
    UInt8.ofNat (v / 64 % 64 + 0x80) :: UInt8.ofNat (v % 64 + 0x80) :: x <
      UInt8.ofNat (w / 64 % 64 + 0x80) :: UInt8.ofNat (w % 64 + 0x80) :: y := by
  refine cons_lt_cons (by omega) (by omega) ?_
  rcases Nat.lt_or_ge (v / 64) (w / 64) with hlt | hge
  · exact .inl (by omega)
  · exact .inr ⟨by omega, follow_one_lt h (by omega)⟩

theorem follow_three_lt (h : v < w) (heq : v / 262144 = w / 262144) :
    UInt8.ofNat (v / 4096 % 64 + 0x80) :: UInt8.ofNat (v / 64 % 64 + 0x80) ::
        UInt8.ofNat (v % 64 + 0x80) :: x <
      UInt8.ofNat (w / 4096 % 64 + 0x80) :: UInt8.ofNat (w / 64 % 64 + 0x80) ::
        UInt8.ofNat (w % 64 + 0x80) :: y := by
  refine cons_lt_cons (by omega) (by omega) ?_
  rcases Nat.lt_or_ge (v / 4096) (w / 4096) with hlt | hge
  · exact .inl (by omega)
  · exact .inr ⟨by omega, follow_two_lt h (by omega)⟩

/-- Of two characters, the bytes of the lesser come first, whatever follows. -/
theorem encodeChar_lt {c d : Char} (h : c < d) (x y : List UInt8) :
    String.utf8EncodeChar c ++ x < String.utf8EncodeChar d ++ y := by
  have hlt : c.val.toNat < d.val.toNat := h
  have hvalid : d.val.toNat < 0xD800 ∨ 0xDFFF < d.val.toNat ∧ d.val.toNat < 0x110000 := d.valid
  unfold String.utf8EncodeChar
  generalize c.val.toNat = v at *
  generalize d.val.toNat = w at *
  dsimp only
  repeat' split
  -- A character of more bytes has the greater leading byte.
  all_goals first
    | omega
    | exact cons_lt_cons (by omega) (by omega) (.inl (by omega))
    | refine cons_lt_cons (by omega) (by omega) ?_
  · rcases Nat.lt_or_ge (v / 64) (w / 64) with hlead | hlead
    · exact .inl (by omega)
    · exact .inr ⟨by omega, follow_one_lt hlt (by omega)⟩
  · rcases Nat.lt_or_ge (v / 4096) (w / 4096) with hlead | hlead
    · exact .inl (by omega)
    · exact .inr ⟨by omega, follow_two_lt hlt (by omega)⟩
  · rcases Nat.lt_or_ge (v / 262144) (w / 262144) with hlead | hlead
    · exact .inl (by omega)
    · exact .inr ⟨by omega, follow_three_lt hlt (by omega)⟩

/-- Bytes are in the order of the characters that they are written for. -/
theorem encode_lt_encode {text other : List Char} (h : text < other) :
    encode text < encode other := by
  induction text generalizing other with
  | nil =>
    cases other with
    | nil => exact absurd h (List.lt_irrefl _)
    | cons d other =>
      obtain ⟨b, behind, hbytes, _⟩ := first_encodeChar d (encode other)
      have hencode : encode (d :: other) = b :: behind := hbytes
      rw [hencode]
      exact List.nil_lt_cons b behind
  | cons c text ih =>
    cases other with
    | nil => exact absurd h (List.not_lt_nil _)
    | cons d other =>
      rcases List.cons_lt_cons_iff.mp h with hcd | ⟨rfl, hrest⟩
      · exact encodeChar_lt hcd _ _
      · exact List.append_left_lt (ih hrest)

end Order

end ConfTree.Utf8
