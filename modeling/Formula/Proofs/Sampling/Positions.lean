import Formula.Proofs.Binary64.Arithmetic
import Formula.Sampling

/-!
# The positions of a range

Positions are meant to be evenly spaced from the lower end of a range up to the upper
end, which is left out. The spacing is rounded once, multiplied by an index and added to
the lower end, and each of these is rounded again. Where the length of the range is not a
double there is no first position. Where the spacing is small against the ends, the last
positions may reach the upper end, and pass it where the spacing is subnormal. Everywhere
else the positions are what they are meant to be.
-/

namespace Formula

namespace Sampling

open Binary64

/-- The positions are taken from `a` up to `b`, and a 64-bit word counts them. -/
structure Spans (config : Sampling) (a b : ℚ) : Prop where
  lower : value? config.lower = some a
  upper : value? config.upper = some b
  lt : a < b
  count_pos : 0 < config.count
  count_lt : config.count < 2 ^ 64

/-- The exact distance between two positions. -/
def pitch (config : Sampling) (a b : ℚ) : ℚ :=
  (b - a) / config.count

/-- The pitch is not subnormal, and few enough positions are taken. -/
structure NormallySpaced (config : Sampling) (a b : ℚ) : Prop where
  normal : 2 ^ (-1020 : ℤ) ≤ config.pitch a b
  count_le : config.count ≤ 2 ^ 50

/-- The pitch is large enough for 47 digits of the ends to tell two positions apart. -/
def WellSpaced (config : Sampling) (a b : ℚ) : Prop :=
  max |a| |b| ≤ 2 ^ 47 * config.pitch a b

variable {config : Sampling} {a b : ℚ}

theorem length_positions : config.positions.length = config.count := by
  rw [positions, List.length_map, List.length_range]

theorem mem_positions {x : Float} :
    x ∈ config.positions ↔ ∃ index < config.count, config.position index = x := by
  simp only [positions, List.mem_map, List.mem_range]

/-- What holds between the positions of a smaller and a greater index holds along the list. -/
theorem pairwise_positions {R : Float → Float → Prop}
    (h : ∀ i j, i < j → j < config.count → R (config.position i) (config.position j)) :
    config.positions.Pairwise R := by
  rw [positions, List.pairwise_map]
  exact List.pairwise_lt_range.imp_of_mem fun _ hj hij => h _ _ hij (List.mem_range.1 hj)

namespace Spans

theorem count_cast_pos (h : config.Spans a b) : (0 : ℚ) < config.count :=
  Nat.cast_pos.2 h.count_pos

theorem length_pos (h : config.Spans a b) : 0 < b - a :=
  sub_pos.2 h.lt

theorem exists_value_count (h : config.Spans a b) :
    ∃ n, value? (Float.ofNat config.count) = some n ∧ 1 ≤ n := by
  rcases exists_value_ofNat h.count_lt with ⟨n, hn, hrounds⟩
  exact ⟨n, hn, hrounds.one_le (by exact_mod_cast h.count_pos)⟩

/-! ## Ranges of finite length -/

/-- The spacing is a double: the rounded length, divided by the rounded count. -/
theorem exists_value_spacing (h : config.Spans a b) (hlength : b - a < overflow) :
    ∃ d n step, Rounds (b - a) d ∧ value? (Float.ofNat config.count) = some n ∧
      Rounds (d / n) step ∧ value? config.spacing = some step ∧ 0 ≤ step := by
  rcases (gives_sub h.upper h.lower).exists_value
    (by rwa [abs_of_pos h.length_pos]) with ⟨d, hd, hdrounds⟩
  rcases h.exists_value_count with ⟨n, hn, hone⟩
  have hdpos : 0 ≤ d := hdrounds.nonneg h.length_pos.le
  have hquotientpos : 0 ≤ d / n := div_nonneg hdpos (by linarith)
  have hquotient : |d / n| < overflow := by
    rw [abs_of_nonneg hquotientpos]
    exact (div_le_self hdpos hone).trans_lt (lt_of_abs_lt (abs_lt_overflow_of_value? hd))
  rcases (gives_div hd hn (by linarith)).exists_value hquotient with ⟨step, hstep, hrounds⟩
  exact ⟨d, n, step, hdrounds, hn, hrounds, hstep, hrounds.nonneg hquotientpos⟩

theorem value?_first (h : config.Spans a b) (hlength : b - a < overflow) :
    value? (config.position 0) = some a := by
  rcases h.exists_value_spacing hlength with ⟨_, _, step, _, _, _, hstep, -⟩
  have hzero : value? (Float.ofNat 0) = some ((0 : ℕ) : ℚ) := value?_ofNat (by decide)
  have hproduct := gives_mul hzero hstep
  rw [Nat.cast_zero, zero_mul] at hproduct
  have hsum := gives_add h.lower (hproduct.eq_value (y := 0) rfl)
  rw [add_zero] at hsum
  exact hsum.eq_value h.lower

/-- The positions do not decrease, and none of them is missing a number. -/
theorem position_mono (h : config.Spans a b) (hlength : b - a < overflow) {i j : ℕ}
    (hij : i ≤ j) (hj : j < config.count) : config.position i ≤ config.position j := by
  rcases h.exists_value_spacing hlength with ⟨_, _, step, _, _, _, hstep, hpos⟩
  rcases exists_value_ofNat (hij.trans_lt (hj.trans h.count_lt)) with ⟨m, hm, hmrounds⟩
  rcases exists_value_ofNat (hj.trans h.count_lt) with ⟨n, hn, hnrounds⟩
  have hmpos : 0 ≤ m := hmrounds.nonneg (Nat.cast_nonneg i)
  have hmn : m ≤ n := hmrounds.mono hnrounds (Nat.cast_le.2 hij)
  exact add_le_add_of_gives h.lower (gives_mul hm hstep) (gives_mul hn hstep)
    (mul_nonneg hmpos hpos) (mul_le_mul_of_nonneg_right hmn hpos)

theorem first_beq_lower (h : config.Spans a b) (hlength : b - a < overflow) :
    (config.position 0 == config.lower) = true :=
  (beq_iff_value (h.value?_first hlength) h.lower).2 rfl

theorem lower_le_position (h : config.Spans a b) (hlength : b - a < overflow) {index : ℕ}
    (hindex : index < config.count) : config.lower ≤ config.position index := by
  rcases h.exists_value_spacing hlength with ⟨_, _, step, _, _, _, hstep, hpos⟩
  rcases exists_value_ofNat (hindex.trans h.count_lt) with ⟨n, hn, hrounds⟩
  have hnpos : 0 ≤ n := hrounds.nonneg (Nat.cast_nonneg index)
  exact le_add_of_gives h.lower (gives_mul hn hstep) (mul_nonneg hnpos hpos)

/-! ## Ranges of infinite length -/

theorem spacing_infinite (h : config.Spans a b) (hlength : overflow ≤ b - a) :
    config.spacing = infinity := by
  rcases h.exists_value_count with ⟨n, hn, hone⟩
  rw [spacing, (gives_sub h.upper h.lower).eq_infinity hlength]
  exact infinity_div hn (by linarith)

/-- Zero times the infinite spacing is not a number, so there is no first position. -/
theorem first_eq_nan (h : config.Spans a b) (hlength : overflow ≤ b - a) :
    config.position 0 = nan := by
  have hzero : value? (Float.ofNat 0) = some 0 := value?_ofNat (n := 0) (by decide)
  rw [position, h.spacing_infinite hlength, zero_mul_infinity hzero, add_nan h.lower]

theorem position_infinite (h : config.Spans a b) (hlength : overflow ≤ b - a) {index : ℕ}
    (hpos : 0 < index) (hindex : index < config.count) : config.position index = infinity := by
  rcases exists_value_ofNat (hindex.trans h.count_lt) with ⟨n, hn, hrounds⟩
  have hnpos : 1 ≤ n := hrounds.one_le (by exact_mod_cast hpos)
  rw [position, h.spacing_infinite hlength, mul_infinity hn (by linarith), add_infinity h.lower]

end Spans

/-! ## What the roundings miss -/

/-- From `a` up to `b` there are `n` steps, `i` of them are taken, and a step is not subnormal. -/
structure Steps (a b n i : ℚ) : Prop where
  one_le : 1 ≤ n
  nonneg : 0 ≤ i
  le : i ≤ n
  lt : a < b
  normal : 2 ^ (-1020 : ℤ) ≤ (b - a) / n

theorem multiple_le {n i : ℚ} (hn : 1 ≤ n) (hin : i ≤ n) (hab : a < b) :
    i * ((b - a) / n) ≤ b - a := by
  have hnpos : 0 < n := one_pos.trans_le hn
  calc i * ((b - a) / n) ≤ n * ((b - a) / n) :=
        mul_le_mul_of_nonneg_right hin (div_nonneg (sub_pos.2 hab).le hnpos.le)
    _ = b - a := mul_div_cancel₀ _ hnpos.ne'

namespace Steps

variable {d n i step product p : ℚ}

theorem pos (h : Steps a b n i) : 0 < n :=
  one_pos.trans_le h.one_le

theorem multiple_nonneg (h : Steps a b n i) : 0 ≤ i * ((b - a) / n) :=
  mul_nonneg h.nonneg (div_nonneg (sub_pos.2 h.lt).le h.pos.le)

/-- The least unit does not count, not even once for every step. -/
theorem least_units_le (h : Steps a b n i) : n * 2 ^ (-1075 : ℤ) ≤ (b - a) / 2 ^ 55 := by
  have hnormal := h.normal
  have hsplit : (2 : ℚ) ^ (-1020 : ℤ) = 2 ^ 55 * 2 ^ (-1075 : ℤ) := by
    rw [← two_zpow_add]
    rfl
  rw [hsplit, le_div_iff₀ h.pos] at hnormal
  rw [le_div_iff₀ (by positivity)]
  linarith

theorem least_unit_le (h : Steps a b n i) : (2 : ℚ) ^ (-1075 : ℤ) ≤ (b - a) / 2 ^ 55 :=
  (le_mul_of_one_le_left (two_zpow_pos _).le h.one_le).trans h.least_units_le

/-- What a multiple of the spacing misses, by the length and the division rounded before. -/
theorem abs_multiple_sub_le (h : Steps a b n i) (hd : Rounds (b - a) d)
    (hstep : Rounds (d / n) step) :
    |i * step - i * ((b - a) / n)| ≤ 3 * (b - a) / 2 ^ 53 := by
  have hab := h.lt
  have hratio : i / n ≤ 1 := (div_le_one h.pos).2 h.le
  have hunits := h.least_units_le
  have hunit := h.least_unit_le
  have hd := hd.abs_sub_le
  rw [abs_of_pos (sub_pos.2 h.lt)] at hd
  have hlength : |d| ≤ b - a + ((b - a) / 2 ^ 53 + 2 ^ (-1075 : ℤ)) := by
    have htriangle := abs_sub_abs_le_abs_sub d (b - a)
    rw [abs_of_pos (sub_pos.2 h.lt)] at htriangle
    linarith
  have hdivided : |i * step - i / n * d| ≤ |d| / 2 ^ 53 + n * 2 ^ (-1075 : ℤ) := by
    have hfactor : i * step - i / n * d = i * (step - d / n) := by ring
    rw [hfactor, abs_mul, abs_of_nonneg h.nonneg]
    calc i * |step - d / n| ≤ i * (|d / n| / 2 ^ 53 + 2 ^ (-1075 : ℤ)) :=
          mul_le_mul_of_nonneg_left hstep.abs_sub_le h.nonneg
      _ = i / n * (|d| / 2 ^ 53) + i * 2 ^ (-1075 : ℤ) := by
          rw [abs_div, abs_of_pos h.pos]
          ring
      _ ≤ |d| / 2 ^ 53 + n * 2 ^ (-1075 : ℤ) :=
          add_le_add (mul_le_of_le_one_left (by positivity) hratio)
            (mul_le_mul_of_nonneg_right h.le (two_zpow_pos _).le)
  have hsubtracted : |i / n * d - i * ((b - a) / n)| ≤ (b - a) / 2 ^ 53 + 2 ^ (-1075 : ℤ) := by
    have hfactor : i / n * d - i * ((b - a) / n) = i / n * (d - (b - a)) := by ring
    rw [hfactor, abs_mul, abs_of_nonneg (div_nonneg h.nonneg h.pos.le)]
    exact (mul_le_of_le_one_left (abs_nonneg _) hratio).trans hd
  have htotal := abs_sub_le (i * step) (i / n * d) (i * ((b - a) / n))
  linarith

/-- What the product misses that is added to the lower end. -/
theorem abs_product_sub_le (h : Steps a b n i)
    (hmultiple : |i * step - i * ((b - a) / n)| ≤ 3 * (b - a) / 2 ^ 53)
    (hproduct : Rounds (i * step) product) :
    |product - i * ((b - a) / n)| ≤ 5 * (b - a) / 2 ^ 53 := by
  have hab := h.lt
  have hexact := multiple_le h.one_le h.le h.lt
  have hunit := h.least_unit_le
  have hsize := abs_sub_abs_le_abs_sub (i * step) (i * ((b - a) / n))
  rw [abs_of_nonneg h.multiple_nonneg] at hsize
  have htriangle := abs_sub_le product (i * step) (i * ((b - a) / n))
  have hproduct := hproduct.abs_sub_le
  linarith

/-- What a position misses by all of its roundings. -/
theorem abs_position_sub_le (h : Steps a b n i)
    (hproduct : |product - i * ((b - a) / n)| ≤ 5 * (b - a) / 2 ^ 53)
    (hp : Rounds (a + product) p) :
    |p - (a + i * ((b - a) / n))| ≤ max |a| |b| / 2 ^ 49 := by
  have hexact := multiple_le h.one_le h.le h.lt
  have hexactpos := h.multiple_nonneg
  have hunit := h.least_unit_le
  have ha := abs_le.1 (le_max_left |a| |b|)
  have hb := abs_le.1 (le_max_right |a| |b|)
  have hbounds := abs_le.1 hproduct
  have hsize : |a + product| ≤ max |a| |b| + 5 * (b - a) / 2 ^ 53 := by
    rw [abs_le]
    constructor <;> linarith
  have htriangle := abs_sub_le p (a + product) (a + i * ((b - a) / n))
  rw [add_sub_add_left_eq_sub] at htriangle
  have hp := hp.abs_sub_le
  linarith

end Steps

theorem Spans.next_le (h : config.Spans a b) {index : ℕ} (hindex : index < config.count) :
    index * config.pitch a b + config.pitch a b ≤ b - a := by
  have hn : (1 : ℚ) ≤ config.count := by exact_mod_cast h.count_pos
  have hnext := multiple_le hn (by exact_mod_cast hindex : (index + 1 : ℚ) ≤ config.count) h.lt
  rw [← pitch, add_one_mul] at hnext
  exact hnext

namespace NormallySpaced

theorem pitch_pos (h : config.NormallySpaced a b) : 0 < config.pitch a b :=
  (two_zpow_pos _).trans_le h.normal

/-- What a product misses is less than the pitch. -/
theorem length_le (hspans : config.Spans a b) (h : config.NormallySpaced a b) :
    5 * (b - a) / 2 ^ 53 ≤ config.pitch a b := by
  have hcount : (config.count : ℚ) ≤ 2 ^ 50 := by exact_mod_cast h.count_le
  have hlength : config.count * config.pitch a b = b - a :=
    mul_div_cancel₀ _ hspans.count_cast_pos.ne'
  have hbound := mul_le_mul_of_nonneg_right hcount h.pitch_pos.le
  linarith [h.pitch_pos]

/-- Every position is a double near the exact position, and not above the upper end. -/
theorem exists_value_position (hspans : config.Spans a b) (h : config.NormallySpaced a b)
    (hlength : b - a < overflow) {index : ℕ} (hindex : index < config.count) :
    ∃ p, value? (config.position index) = some p ∧ a ≤ p ∧ p ≤ b ∧
      |p - (a + index * config.pitch a b)| ≤ max |a| |b| / 2 ^ 49 := by
  have hcount := h.count_le
  have hsteps : Steps a b config.count index :=
    ⟨by exact_mod_cast hspans.count_pos, Nat.cast_nonneg index, by exact_mod_cast hindex.le,
      hspans.lt, h.normal⟩
  have hmissed := h.length_le hspans
  have hlast := hspans.next_le hindex
  have hfirst : 0 ≤ index * config.pitch a b := hsteps.multiple_nonneg
  rcases hspans.exists_value_spacing hlength with ⟨d, n, step, hd, hcast, hstep, hspacing, hpos⟩
  obtain rfl : config.count = n := Option.some_inj.1 ((value?_ofNat (by omega)).symm.trans hcast)
  -- the product stays within the length, so neither it nor the sum overflows
  have hmultiplepos : 0 ≤ index * step := mul_nonneg hsteps.nonneg hpos
  have hmultiple := hsteps.abs_multiple_sub_le hd hstep
  have hinrange : |index * step| < overflow := by
    have hbounds := abs_le.1 hmultiple
    rw [← pitch] at hbounds
    rw [abs_of_nonneg hmultiplepos]
    linarith [h.pitch_pos]
  rcases (gives_mul (value?_ofNat (by omega)) hspacing).exists_value hinrange with
    ⟨product, hvalue, hproduct⟩
  have hproductpos : 0 ≤ product := hproduct.nonneg hmultiplepos
  have herror := hsteps.abs_product_sub_le hmultiple hproduct
  have hsum : a + product ≤ b := by
    have hbounds := abs_le.1 herror
    rw [← pitch] at hbounds
    linarith
  have hsuminrange : |a + product| < overflow := by
    have hlow := abs_lt.1 (abs_lt_overflow_of_value? hspans.lower)
    have hhigh := abs_lt.1 (abs_lt_overflow_of_value? hspans.upper)
    rw [abs_lt]
    constructor <;> linarith
  rcases (gives_add hspans.lower hvalue).exists_value hsuminrange with ⟨p, hp, hrounds⟩
  refine ⟨p, hp, ?_, ?_, hsteps.abs_position_sub_le herror hrounds⟩
  · exact (Rounds.of_value? hspans.lower).mono hrounds (le_add_of_nonneg_right hproductpos)
  · exact hrounds.mono (.of_value? hspans.upper) hsum

/-- The roundings do not use up the distance of two positions. -/
theorem position_strictMono (hspans : config.Spans a b) (h : config.NormallySpaced a b)
    (hlength : b - a < overflow) (hlarge : config.WellSpaced a b) {i j : ℕ} (hij : i < j)
    (hj : j < config.count) : config.position i < config.position j := by
  rcases h.exists_value_position hspans hlength (hij.trans hj) with ⟨p, hp, -, -, hpmissed⟩
  rcases h.exists_value_position hspans hlength hj with ⟨q, hq, -, -, hqmissed⟩
  have hnext : (i : ℚ) + 1 ≤ j := by exact_mod_cast hij
  have hstep := mul_le_mul_of_nonneg_right hnext h.pitch_pos.le
  rw [add_one_mul] at hstep
  rw [WellSpaced] at hlarge
  have hpitch := h.pitch_pos
  have hpbounds := abs_le.1 hpmissed
  have hqbounds := abs_le.1 hqmissed
  rw [lt_iff_value hp hq]
  linarith

theorem position_lt_upper (hspans : config.Spans a b) (h : config.NormallySpaced a b)
    (hlength : b - a < overflow) (hlarge : config.WellSpaced a b) {index : ℕ}
    (hindex : index < config.count) : config.position index < config.upper := by
  rcases h.exists_value_position hspans hlength hindex with ⟨p, hp, -, -, hmissed⟩
  have hlast := hspans.next_le hindex
  rw [WellSpaced] at hlarge
  have hpitch := h.pitch_pos
  have hbounds := abs_le.1 hmissed
  rw [lt_iff_value hp hspans.upper]
  linarith

end NormallySpaced

/-! ## All ranges -/

/-- The positions of a range. A length that is a double gives positions that start at the
lower end and do not decrease; spaced normally, they are near the exact positions and not
above the upper end, and spaced well, they increase and stay below it. A length above all
doubles gives no number as the first position and infinities after it. -/
theorem positions_of_spans (h : config.Spans a b) :
    config.positions.length = config.count ∧
      (b - a < overflow →
        (config.position 0 == config.lower) = true ∧
          config.positions.Pairwise (· ≤ ·) ∧
          ∀ x ∈ config.positions, config.lower ≤ x) ∧
      (b - a < overflow → config.NormallySpaced a b →
        (∀ index < config.count, ∃ p, value? (config.position index) = some p ∧
            a ≤ p ∧ p ≤ b ∧ |p - (a + index * config.pitch a b)| ≤ max |a| |b| / 2 ^ 49) ∧
          (config.WellSpaced a b →
            config.positions.Pairwise (· < ·) ∧
              ∀ x ∈ config.positions, x < config.upper)) ∧
      (overflow ≤ b - a →
        config.position 0 = nan ∧
          ∀ index < config.count, 0 < index → config.position index = infinity) := by
  refine ⟨length_positions, fun hlength => ⟨h.first_beq_lower hlength, ?_, ?_⟩,
    fun hlength hspaced => ⟨?_, fun hlarge => ⟨?_, ?_⟩⟩,
    fun hlength => ⟨h.first_eq_nan hlength, ?_⟩⟩
  · exact pairwise_positions fun i j hij hj => h.position_mono hlength hij.le hj
  · intro x hx
    rcases mem_positions.1 hx with ⟨index, hindex, rfl⟩
    exact h.lower_le_position hlength hindex
  · exact fun index hindex => hspaced.exists_value_position h hlength hindex
  · exact pairwise_positions fun i j hij hj => hspaced.position_strictMono h hlength hlarge hij hj
  · intro x hx
    rcases mem_positions.1 hx with ⟨index, hindex, rfl⟩
    exact hspaced.position_lt_upper h hlength hlarge hindex
  · exact fun index hindex hpos => h.position_infinite hlength hpos hindex

/-- Four positions from one up to two. -/
def quarters : Sampling :=
  ⟨"x", 1, 2, 4, 0⟩

theorem positions_of_spans_quarters :
    quarters.Spans 1 2 ∧ (2 : ℚ) - 1 < overflow ∧ quarters.NormallySpaced 1 2 ∧
      quarters.WellSpaced 1 2 ∧ quarters.positions.Pairwise (· < ·) := by
  have hspans : quarters.Spans 1 2 :=
    ⟨by decide +kernel, by decide +kernel, by norm_num, by decide, by decide⟩
  have hpitch : quarters.pitch 1 2 = 2 ^ (-2 : ℤ) := by
    change ((2 : ℚ) - 1) / (4 : ℕ) = 2 ^ (-2 : ℤ)
    norm_num
  have hlength : (2 : ℚ) - 1 < overflow := by
    have hone := two_zpow_lt_overflow (by decide : (0 : ℤ) ≤ 1023)
    norm_num at hone ⊢
    exact hone
  have hnormal : quarters.NormallySpaced 1 2 := by
    refine ⟨?_, by decide⟩
    rw [hpitch]
    exact zpow_le_zpow_right₀ one_le_two (by decide)
  have hlarge : quarters.WellSpaced 1 2 := by
    rw [WellSpaced, hpitch]
    norm_num
  exact ⟨hspans, hlength, hnormal, hlarge,
    (((positions_of_spans hspans).2.2.1 hlength hnormal).2 hlarge).1⟩

/-- Two ranges whose positions are not all in them: one longer than the greatest double, and
one between two neighbours. -/
theorem positions_leave_range :
    (⟨"x", -1e308, 1e308, 1, 0⟩ : Sampling).positions.map Float.isNaN = [true] ∧
      (⟨"x", 1, 1.0000000000000002, 3, 0⟩ : Sampling).positions.map
        (· == 1.0000000000000002) = [false, false, true] := by
  decide +kernel

end Sampling

end Formula
