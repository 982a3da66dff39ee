import Mathlib

/-!
# The bytes of a text

UTF-8 keeps the order of characters: more continuation bytes come with a greater leading
byte, and among encodings of one size the groups of six bits decide from the left. So
texts compare as their bytes do.
-/

namespace Formula

namespace Text

/-- The UTF-8 bytes of a text, as natural numbers. -/
def bytes (text : String) : List ℕ :=
  text.toUTF8.data.toList.map UInt8.toNat

variable {v w mark count : ℕ}

/-! ## One character -/

/-- A leading byte over `mark` and `count` continuation bytes with six bits of `v` each. -/
def block (mark : ℕ) : ℕ → ℕ → List ℕ
  | 0, v => [v + mark]
  | count + 1, v => block mark count (v / 64) ++ [v % 64 + 0x80]

/-- How many continuation bytes the code point `v` takes. -/
def continuations (v : ℕ) : ℕ :=
  if v < 0x80 then 0 else if v < 0x800 then 1 else if v < 0x10000 then 2 else 3

/-- What the leading byte before so many continuation bytes starts from. -/
def leadingMark : ℕ → ℕ
  | 0 => 0
  | 1 => 0xc0
  | 2 => 0xe0
  | _ => 0xf0

/-- The bytes of the code point `v`. -/
def encoding (v : ℕ) : List ℕ :=
  block (leadingMark (continuations v)) (continuations v) v

theorem block_eq_cons (mark count v : ℕ) :
    ∃ rest, block mark count v = (v / 64 ^ count + mark) :: rest := by
  induction count generalizing v with
  | zero => exact ⟨[], by rw [block, pow_zero, Nat.div_one]⟩
  | succ count ih =>
      obtain ⟨rest, hrest⟩ := ih (v / 64)
      refine ⟨rest ++ [v % 64 + 0x80], ?_⟩
      rw [block, hrest, Nat.div_div_eq_div_mul, pow_succ', List.cons_append]

/-- Among blocks of one size the first group that differs decides. -/
theorem block_append_lt (h : v < w) (first second : List ℕ) :
    block mark count v ++ first < block mark count w ++ second := by
  induction count generalizing v w first second with
  | zero => exact List.cons_lt_cons_iff.2 (.inl (Nat.add_lt_add_right h mark))
  | succ count ih =>
      rw [block, block, List.append_assoc, List.append_assoc]
      obtain hlt | heq : v / 64 < w / 64 ∨ v / 64 = w / 64 := by omega
      · exact ih hlt _ _
      · rw [heq]
        have hlast : v % 64 + 0x80 < w % 64 + 0x80 := by omega
        exact List.append_left_lt (List.cons_lt_cons_iff.2 (.inl hlast))

theorem continuations_mono (h : v ≤ w) : continuations v ≤ continuations w := by
  unfold continuations
  split_ifs <;> omega

/-- The leading byte tells how many bytes follow, and more of them make it greater. -/
theorem leading_lt (h : continuations v < continuations w) :
    v / 64 ^ continuations v + leadingMark (continuations v) <
      w / 64 ^ continuations w + leadingMark (continuations w) := by
  unfold continuations at h ⊢
  split_ifs at h ⊢ <;> simp only [leadingMark] <;> omega

theorem encoding_append_lt (h : v < w) (first second : List ℕ) :
    encoding v ++ first < encoding w ++ second := by
  obtain hlt | heq := (continuations_mono h.le).lt_or_eq
  · obtain ⟨vs, hvs⟩ := block_eq_cons (leadingMark (continuations v)) (continuations v) v
    obtain ⟨ws, hws⟩ := block_eq_cons (leadingMark (continuations w)) (continuations w) w
    rw [encoding, encoding, hvs, hws]
    exact List.cons_lt_cons_iff.2 (.inl (leading_lt hlt))
  · rw [encoding, encoding, heq]
    exact block_append_lt h first second

/-- The masks of the core library cut nothing off a code point. -/
theorem toNat_utf8EncodeChar (c : Char) :
    (String.utf8EncodeChar c).map UInt8.toNat = encoding c.toNat := by
  have hrange : c.val.toNat < 0x110000 := by
    obtain h | h := c.valid <;> omega
  change _ = encoding c.val.toNat
  simp only [String.utf8EncodeChar, encoding, continuations]
  generalize c.val.toNat = v at hrange ⊢
  split_ifs <;>
    simp only [block, leadingMark, List.map_cons, List.map_nil, List.cons_append, List.nil_append,
      List.cons.injEq, UInt8.toNat_ofNat', and_true, Nat.add_zero] <;>
    omega

/-! ## Whole texts -/

theorem bytes_eq (text : String) :
    bytes text = text.toList.flatMap fun c => encoding c.toNat := by
  have hencode : text.toUTF8 = (text.toList.flatMap String.utf8EncodeChar).toByteArray :=
    String.utf8Encode_toList.symm
  rw [bytes, hencode, List.toList_data_toByteArray, List.map_flatMap]
  simp only [toNat_utf8EncodeChar]

theorem encodings_lt {cs ds : List Char} (h : cs < ds) :
    (cs.flatMap fun c => encoding c.toNat) < ds.flatMap fun d => encoding d.toNat := by
  induction cs generalizing ds with
  | nil =>
      cases ds with
      | nil => exact absurd h (lt_irrefl _)
      | cons d ds =>
          obtain ⟨rest, hrest⟩ := block_eq_cons (leadingMark (continuations d.toNat))
            (continuations d.toNat) d.toNat
          rw [List.flatMap_nil, List.flatMap_cons, encoding, hrest, List.cons_append]
          exact List.nil_lt_cons _ _
  | cons c cs ih =>
      cases ds with
      | nil => exact absurd h (List.not_lt_nil _)
      | cons d ds =>
          rw [List.flatMap_cons, List.flatMap_cons]
          obtain hlt | ⟨rfl, hrest⟩ := List.cons_lt_cons_iff.1 h
          · exact encoding_append_lt hlt _ _
          · exact List.append_left_lt (ih hrest)

theorem bytes_strictMono : StrictMono bytes := by
  intro first second h
  rw [bytes_eq, bytes_eq]
  exact encodings_lt h

/-- Texts compare as their UTF-8 bytes do. -/
theorem bytes_le_iff (first second : String) : bytes first ≤ bytes second ↔ first ≤ second :=
  bytes_strictMono.le_iff_le

end Text

end Formula
