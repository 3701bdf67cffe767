import Mathlib.Tactic.FieldSimp
import Mathlib.Tactic.Linarith
import Mathlib.Tactic.Positivity
import Mathlib.Tactic.Ring
import Descent.Binary64

/-!
# Rounding to binary64

The exponent and fraction bits of a number stand for `significand * 2 ^ (max 1 exponent - 1075)`,
the significand having one more bit than the fraction unless the exponent bits are zero
(`Binary64.toRat`).  Read as one natural number the bits grow with the number they stand for
(`Binary64.toRat_strictMono`).

`Binary64.RoundsTo x m` says that `m` is `x` rounded to nearest, ties to even: up to the point half
a step beyond the greatest finite number no finite number is nearer, and from there on `m` is
infinity.  There is only one such `m` (`Binary64.RoundsTo.unique`), and `Binary64.nearest` finds it
(`Binary64.roundsTo_nearest`).

For the proof the exponent is unbounded at first.  The quotient lies between two neighbours on the
grid of its binade, and the remainder of the division says how far it is from each
(`Binary64.distance_to_neighbours`); so the division finds the nearest number
(`Binary64.nearestIn_univ`).  The greatest finite number has odd bits, so what lies in the middle
between it and the next is rounded up, out of the range (`Binary64.NearestIn.le_iff_of_odd`,
`Binary64.middle_greatest`).
-/

namespace Descent

namespace Binary64

/-! ## What the bits stand for -/

/-- The exponent bits. -/
def exponent (m : ℕ) : ℕ := m / 2 ^ fractionBits

/-- The fraction bits. -/
def fraction (m : ℕ) : ℕ := m % 2 ^ fractionBits

/-- The significand: a leading one and the fraction, or only the fraction if the exponent bits are
zero. -/
def significand (m : ℕ) : ℕ := if exponent m = 0 then fraction m else 2 ^ fractionBits + fraction m

/-- The number that exponent and fraction bits stand for. -/
def toRat (m : ℕ) : ℚ := significand m * 2 ^ (max 1 (exponent m : ℤ) - 1075)

/-- The same number, counted in steps of the finest grid. -/
def units (m : ℕ) : ℕ := significand m * 2 ^ (exponent m - 1)

theorem exponent_mul_add_fraction (m : ℕ) : 2 ^ fractionBits * exponent m + fraction m = m :=
  Nat.div_add_mod m _

theorem fraction_lt (m : ℕ) : fraction m < 2 ^ fractionBits := Nat.mod_lt m (by decide)

theorem toRat_eq (m : ℕ) : toRat m = units m / 2 ^ scale := by
  have hexponent : max 1 (exponent m : ℤ) - 1075 = ((exponent m - 1 : ℕ) : ℤ) - (scale : ℕ) := by
    simp only [scale]
    omega
  rw [toRat, hexponent, zpow_sub₀ two_ne_zero, zpow_natCast, zpow_natCast, units]
  push_cast
  ring

/-- A significand is even just if the bits are even. -/
theorem even_significand_iff (m : ℕ) : Even (significand m) ↔ Even m := by
  have hbits := exponent_mul_add_fraction m
  simp only [significand, fractionBits, Nat.even_iff] at hbits ⊢
  split <;> omega

theorem units_of_fields {e f : ℕ} (hf : f < 2 ^ fractionBits) :
    units (2 ^ fractionBits * e + f) =
      (if e = 0 then f else 2 ^ fractionBits + f) * 2 ^ (e - 1) := by
  have hexponent : exponent (2 ^ fractionBits * e + f) = e := by
    rw [exponent, Nat.mul_add_div (by decide), Nat.div_eq_of_lt hf, Nat.add_zero]
  have hfraction : fraction (2 ^ fractionBits * e + f) = f := by
    rw [fraction, Nat.mul_add_mod, Nat.mod_eq_of_lt hf]
  rw [units, significand, hexponent, hfraction]

/-! ## Neighbours -/

/-- A significand `r` on the grid of the binade `u` has full length, or is on the finest grid. -/
structure OnGrid (u r : ℕ) : Prop where
  full : u = 0 ∨ 2 ^ fractionBits ≤ r
  le : r ≤ 2 * 2 ^ fractionBits

/-- On the grid of a binade the bits count steps of the grid. -/
theorem OnGrid.units_eq {u r : ℕ} (h : OnGrid u r) :
    units (2 ^ fractionBits * u + r) = r * 2 ^ u := by
  obtain ⟨hfull, hle⟩ := h
  rcases Nat.lt_trichotomy r (2 * 2 ^ fractionBits) with hlt | rfl | hgt
  · rcases Nat.lt_or_ge r (2 ^ fractionBits) with hsmall | hlarge
    · obtain rfl : u = 0 := hfull.resolve_right (by omega)
      rw [units_of_fields hsmall]
      simp
    · -- The leading bit of the significand is one more in the exponent bits.
      have hbits : 2 ^ fractionBits * u + r =
          2 ^ fractionBits * (u + 1) + (r - 2 ^ fractionBits) := by
        rw [Nat.mul_succ]
        omega
      rw [hbits, units_of_fields (by omega), if_neg (Nat.succ_ne_zero u), Nat.add_sub_cancel,
        Nat.add_sub_cancel' hlarge]
  · have hbits : 2 ^ fractionBits * u + 2 * 2 ^ fractionBits =
        2 ^ fractionBits * (u + 2) + 0 := by ring
    rw [hbits, units_of_fields (by decide), if_neg (Nat.succ_ne_zero _)]
    simp only [Nat.add_zero, Nat.add_succ_sub_one, Nat.pow_succ]
    ring
  · omega

theorem OnGrid.toRat_eq {u r : ℕ} (h : OnGrid u r) :
    toRat (2 ^ fractionBits * u + r) = r * (2 ^ u / 2 ^ scale) := by
  rw [Binary64.toRat_eq, h.units_eq]
  push_cast
  ring

theorem exists_onGrid (m : ℕ) :
    ∃ u r, m = 2 ^ fractionBits * u + r ∧ OnGrid u r ∧ OnGrid u (r + 1) := by
  have hbits := exponent_mul_add_fraction m
  have hfraction := fraction_lt m
  rcases Nat.eq_zero_or_pos (exponent m) with hzero | hpos
  · refine ⟨0, fraction m, ?_, ⟨.inl rfl, by omega⟩, ⟨.inl rfl, by omega⟩⟩
    rw [hzero] at hbits
    exact hbits.symm
  · obtain ⟨u, hu⟩ : ∃ u, exponent m = u + 1 := ⟨exponent m - 1, by omega⟩
    refine ⟨u, 2 ^ fractionBits + fraction m, ?_, ⟨.inr (by omega), by omega⟩,
      ⟨.inr (by omega), by omega⟩⟩
    rw [hu, Nat.mul_succ] at hbits
    omega

theorem units_strictMono : StrictMono units := by
  refine strictMono_nat_of_lt_succ fun m => ?_
  obtain ⟨u, r, rfl, hr, hnext⟩ := exists_onGrid m
  rw [hr.units_eq, Nat.add_assoc, hnext.units_eq, Nat.succ_mul]
  exact Nat.lt_add_of_pos_right (Nat.two_pow_pos u)

/-- The bits grow with the number they stand for. -/
theorem toRat_strictMono : StrictMono toRat := by
  intro m k h
  rw [toRat_eq, toRat_eq]
  have hunits : (units m : ℚ) < units k := by exact_mod_cast units_strictMono h
  exact div_lt_div_of_pos_right hunits (by positivity)

/-! ## Nearest numbers -/

/-- Among the bits in `S`, `m` stands for a number nearest to `x`, and has an even significand if it
is not the only one. -/
structure NearestIn (S : Set ℕ) (x : ℚ) (m : ℕ) : Prop where
  mem : m ∈ S
  le : ∀ k ∈ S, |x - toRat m| ≤ |x - toRat k|
  even_of_tie : ∀ k ∈ S, k ≠ m → |x - toRat k| = |x - toRat m| → Even (significand m)

/-- Correct rounding to nearest, ties to even.  The numbers from half a step beyond the greatest
finite number on are rounded to infinity. -/
structure RoundsTo (x : ℚ) (m : ℕ) : Prop where
  nearest : x < 2 ^ 1024 - 2 ^ 970 → NearestIn (Set.Iio infinity) x m
  infinite : 2 ^ 1024 - 2 ^ 970 ≤ x → m = infinity

theorem NearestIn.mono {S T : Set ℕ} {x : ℚ} {m : ℕ} (h : NearestIn T x m) (hST : S ⊆ T)
    (hm : m ∈ S) : NearestIn S x m where
  mem := hm
  le k hk := h.le k (hST hk)
  even_of_tie k hk := h.even_of_tie k (hST hk)

/-- A number between two neighbours is nearest to the nearer one, or to the even one. -/
theorem nearestIn_univ_of_between {x : ℚ} {m : ℕ} (low : ℕ) (hlow : toRat low ≤ x)
    (hhigh : x ≤ toRat (low + 1))
    (hm : m = low ∧ x - toRat low ≤ toRat (low + 1) - x ∨
      m = low + 1 ∧ toRat (low + 1) - x ≤ x - toRat low)
    (heven : x - toRat low = toRat (low + 1) - x → Even m) : NearestIn Set.univ x m := by
  have hbelow : ∀ k ≤ low, toRat k ≤ toRat low ∧ |x - toRat k| = x - toRat k := by
    intro k hk
    have hle := toRat_strictMono.monotone hk
    exact ⟨hle, abs_of_nonneg (by linarith)⟩
  have habove : ∀ k, low < k → toRat (low + 1) ≤ toRat k ∧ |x - toRat k| = toRat k - x := by
    intro k hk
    have hle := toRat_strictMono.monotone (Nat.succ_le_of_lt hk)
    exact ⟨hle, by rw [abs_sub_comm, abs_of_nonneg (by linarith)]⟩
  -- No number is nearer than `m`, and one that is equally near lies on the other side.
  have hcompare : ∀ k, |x - toRat m| ≤ |x - toRat k| ∧
      (k ≠ m → |x - toRat k| = |x - toRat m| → x - toRat low = toRat (low + 1) - x) := by
    intro k
    rcases hm with ⟨rfl, hnear⟩ | ⟨rfl, hnear⟩
    · rw [(hbelow m le_rfl).2]
      rcases Nat.lt_or_ge m k with hk | hk
      · obtain ⟨hle, hdist⟩ := habove k hk
        rw [hdist]
        exact ⟨by linarith, fun _ htie => by linarith⟩
      · obtain ⟨hle, hdist⟩ := hbelow k hk
        rw [hdist]
        refine ⟨by linarith, fun hne htie => ?_⟩
        linarith [toRat_strictMono (Nat.lt_of_le_of_ne hk hne)]
    · rw [(habove (low + 1) low.lt_succ_self).2]
      rcases Nat.lt_or_ge low k with hk | hk
      · obtain ⟨hle, hdist⟩ := habove k hk
        rw [hdist]
        refine ⟨by linarith, fun hne htie => ?_⟩
        linarith [toRat_strictMono (Nat.lt_of_le_of_ne hk hne.symm)]
      · obtain ⟨hle, hdist⟩ := hbelow k hk
        rw [hdist]
        exact ⟨by linarith, fun _ htie => by linarith⟩
  refine ⟨trivial, fun k _ => (hcompare k).1, fun k _ hne htie => ?_⟩
  exact (even_significand_iff m).2 (heven ((hcompare k).2 hne htie))

/-- Of two numbers that are equally near, a third one between them is nearer. -/
theorem NearestIn.unique {bound : ℕ} {x : ℚ} {m k : ℕ} (hm : NearestIn (Set.Iio bound) x m)
    (hk : NearestIn (Set.Iio bound) x k) : m = k := by
  wlog hlt : m < k generalizing m k
  · rcases Nat.lt_trichotomy m k with h | h | h
    · exact this hm hk h
    · exact h
    · exact (this hk hm h).symm
  exfalso
  have htie : |x - toRat k| = |x - toRat m| := le_antisymm (hk.le m hm.mem) (hm.le k hk.mem)
  -- Both bits are even, so they are not neighbours.
  have hmeven := (even_significand_iff m).1 (hm.even_of_tie k hk.mem hlt.ne' htie)
  have hkeven := (even_significand_iff k).1 (hk.even_of_tie m hm.mem hlt.ne htie.symm)
  have hbetween : m + 1 < k := by
    rw [Nat.even_iff] at hmeven hkeven
    omega
  have hleft : toRat m < toRat (m + 1) := toRat_strictMono m.lt_succ_self
  have hright : toRat (m + 1) < toRat k := toRat_strictMono hbetween
  have hmiddle : x - toRat m = toRat k - x := by
    rcases abs_eq_abs.1 htie with hsame | hopposite <;> linarith
  have hnearer : |x - toRat (m + 1)| < x - toRat m := abs_lt.2 ⟨by linarith, by linarith⟩
  exact (hnearer.trans_le (le_abs_self _)).not_ge (hm.le (m + 1) (hbetween.trans hk.mem))

/-- There is only one way to round a number. -/
theorem RoundsTo.unique {x : ℚ} {m k : ℕ} (hm : RoundsTo x m) (hk : RoundsTo x k) : m = k := by
  rcases lt_or_ge x (2 ^ 1024 - 2 ^ 970) with hfinite | hlarge
  · exact (hm.nearest hfinite).unique (hk.nearest hfinite)
  · rw [hm.infinite hlarge, hk.infinite hlarge]

/-! ## The range -/

/-- From odd bits on, the middle between two neighbours is rounded up. -/
theorem NearestIn.le_iff_of_odd {x : ℚ} {m k : ℕ} (h : NearestIn Set.univ x m) (hodd : ¬ Even k) :
    m ≤ k ↔ x < (toRat k + toRat (k + 1)) / 2 := by
  have hstep : toRat k < toRat (k + 1) := toRat_strictMono k.lt_succ_self
  constructor
  · intro hle
    by_contra! hlarge
    have hdist : |x - toRat (k + 1)| ≤ x - toRat k := abs_le.2 ⟨by linarith, by linarith⟩
    have hnear := (le_abs_self _).trans (h.le (k + 1) trivial)
    obtain rfl : m = k := le_antisymm hle (toRat_strictMono.le_iff_le.1 (by linarith))
    have htie := le_antisymm (hdist.trans (le_abs_self _)) (h.le (m + 1) trivial)
    exact hodd ((even_significand_iff m).1 (h.even_of_tie (m + 1) trivial m.succ_ne_self htie))
  · intro hsmall
    by_contra! hlt
    have hle : toRat (k + 1) ≤ toRat m := toRat_strictMono.monotone hlt
    have hdist : |x - toRat k| < toRat (k + 1) - x := abs_lt.2 ⟨by linarith, by linarith⟩
    have hnear := (neg_le_abs _).trans (h.le k trivial)
    linarith

/-- The bits of the greatest finite number. -/
def greatest : ℕ := infinity - 1

theorem lt_infinity_iff {m : ℕ} : m < infinity ↔ m ≤ greatest := Nat.lt_iff_le_pred (by decide)

/-- Half a step beyond the greatest finite number. -/
theorem middle_greatest : (toRat greatest + toRat (greatest + 1)) / 2 = 2 ^ 1024 - 2 ^ 970 := by
  have hgrid : OnGrid 2045 (2 ^ 53 - 1) := ⟨.inr (by decide), by decide⟩
  have hnext : OnGrid 2045 (2 ^ 53 - 1 + 1) := ⟨.inr (by decide), by decide⟩
  have hbits : greatest = 2 ^ fractionBits * 2045 + (2 ^ 53 - 1) := by decide
  have hstep : (2 : ℚ) ^ 2045 / 2 ^ scale = 2 * 2 ^ 970 := by
    rw [div_eq_iff (by positivity), ← pow_succ', ← pow_add]
    rfl
  have htop : (2 : ℚ) ^ 1024 = 2 ^ 54 * 2 ^ 970 := by
    rw [← pow_add]
  rw [hbits, hgrid.toRat_eq, Nat.add_assoc, hnext.toRat_eq, hstep, htop]
  generalize (2 : ℚ) ^ 970 = half
  norm_num
  ring

/-! ## Division -/

/-- The quotient is rounded to a neighbour that is not the farther one. -/
theorem roundHalfEven_eq (n d : ℕ) :
    (roundHalfEven n d = n / d ∧ n % d ≤ d - n % d ∨
      roundHalfEven n d = n / d + 1 ∧ d - n % d ≤ n % d) ∧
      (n % d = d - n % d → Even (roundHalfEven n d)) := by
  simp only [roundHalfEven, Nat.even_iff]
  split
  · omega
  · split <;> omega

/-- The quotient, counted in steps of its binade, is on the grid, and so is the next significand. -/
theorem onGrid_binade (n d : ℕ) :
    OnGrid (binade n d) (n <<< scale / d <<< binade n d) ∧
      OnGrid (binade n d) (n <<< scale / d <<< binade n d + 1) := by
  have hsteps : n <<< scale / d <<< binade n d = n <<< scale / d / 2 ^ binade n d := by
    rw [Nat.shiftLeft_eq d, Nat.div_div_eq_div_mul]
  rw [hsteps]
  unfold binade
  generalize n <<< scale / d = q
  have hlt : q / 2 ^ (q.log2 - fractionBits) < 2 * 2 ^ fractionBits := by
    rw [Nat.div_lt_iff_lt_mul (Nat.two_pow_pos _), ← Nat.pow_succ', ← Nat.pow_add]
    exact Nat.lt_log2_self.trans_le (Nat.pow_le_pow_right (by decide) (by omega))
  have hfull : q.log2 - fractionBits = 0 ∨ 2 ^ fractionBits ≤ q / 2 ^ (q.log2 - fractionBits) := by
    rcases Nat.eq_zero_or_pos (q.log2 - fractionBits) with hzero | hpos
    · exact .inl hzero
    · have hq : q ≠ 0 := by
        rintro rfl
        simp at hpos
      refine .inr ((Nat.le_div_iff_mul_le (Nat.two_pow_pos _)).2 ?_)
      rw [← Nat.pow_add, Nat.add_sub_cancel' (by omega)]
      exact Nat.log2_self_le hq
  exact ⟨⟨hfull, hlt.le⟩, ⟨hfull.imp_right Nat.le_succ_of_le, hlt⟩⟩

/-- The remainder of the division measures how far the quotient is from its neighbours. -/
theorem distance_to_neighbours (n : ℕ) {d : ℕ} (hd : 0 < d) :
    let divisor := d <<< binade n d
    let remainder := n <<< scale % divisor
    let low := 2 ^ fractionBits * binade n d + n <<< scale / divisor
    ∃ step : ℚ, 0 < step ∧ (n : ℚ) / d - toRat low = remainder * step ∧
      toRat (low + 1) - (n : ℚ) / d = (divisor - remainder : ℕ) * step := by
  intro divisor remainder low
  have hdivisor : 0 < divisor := by
    simp only [divisor, Nat.shiftLeft_eq]
    positivity
  have hdivision : (n : ℚ) * 2 ^ scale = divisor * (n <<< scale / divisor : ℕ) + remainder := by
    -- Only the dividend becomes a product; quotient and remainder stay as they are.
    have hnat := Nat.div_add_mod (n <<< scale) divisor
    nth_rewrite 3 [Nat.shiftLeft_eq] at hnat
    exact_mod_cast hnat.symm
  have hquotient : (n : ℚ) / d = n * 2 ^ scale / divisor * (2 ^ binade n d / 2 ^ scale) := by
    simp only [divisor, Nat.shiftLeft_eq]
    push_cast
    field_simp
  obtain ⟨hgrid, hnext⟩ := onGrid_binade n d
  refine ⟨2 ^ binade n d / 2 ^ scale / divisor, by positivity, ?_, ?_⟩
  · rw [hgrid.toRat_eq, hquotient, hdivision]
    field_simp
    ring
  · rw [Nat.add_assoc, hnext.toRat_eq, hquotient, hdivision,
      Nat.cast_sub (Nat.mod_lt _ hdivisor).le]
    push_cast
    field_simp
    ring

/-- Without a bound on the exponent, the division finds the nearest number. -/
theorem nearestIn_univ (n : ℕ) {d : ℕ} (hd : 0 < d) : NearestIn Set.univ ((n : ℚ) / d)
    ((binade n d <<< fractionBits) + roundHalfEven (n <<< scale) (d <<< binade n d)) := by
  obtain ⟨step, hstep, hlow, hhigh⟩ := distance_to_neighbours n hd
  obtain ⟨hround, heven⟩ := roundHalfEven_eq (n <<< scale) (d <<< binade n d)
  have hle : ∀ a b : ℕ, (a : ℚ) * step ≤ b * step ↔ a ≤ b := by
    intro a b
    rw [mul_le_mul_iff_left₀ hstep, Nat.cast_le]
  have hexponent : Even (2 ^ fractionBits * binade n d) :=
    (by decide : Even (2 ^ fractionBits)).mul_right _
  rw [Nat.shiftLeft_eq (binade n d), Nat.mul_comm (binade n d)]
  refine nearestIn_univ_of_between (2 ^ fractionBits * binade n d + n <<< scale / d <<< binade n d)
    (sub_nonneg.1 ?_) (sub_nonneg.1 ?_) ?_ fun htie => ?_
  · rw [hlow]
    exact mul_nonneg (Nat.cast_nonneg _) hstep.le
  · rw [hhigh]
    exact mul_nonneg (Nat.cast_nonneg _) hstep.le
  · rw [hlow, hhigh, hle, hle]
    omega
  · rw [hlow, hhigh, mul_left_inj' hstep.ne', Nat.cast_inj] at htie
    exact hexponent.add (heven htie)

/-- **Rounding.** The bits found are those of the number nearest to the quotient, ties to even. -/
theorem roundsTo_nearest (n : ℕ) {d : ℕ} (hd : 0 < d) : RoundsTo ((n : ℚ) / d) (nearest n d) := by
  have huniv := nearestIn_univ n hd
  have hrange := huniv.le_iff_of_odd (k := greatest) (by decide)
  rw [middle_greatest, ← lt_infinity_iff] at hrange
  constructor
  · intro hfinite
    have hlt := hrange.2 hfinite
    have hnearest : nearest n d = _ := Nat.min_eq_right hlt.le
    rw [hnearest]
    exact huniv.mono (Set.subset_univ _) hlt
  · intro hlarge
    exact Nat.min_eq_left (Nat.le_of_not_lt (mt hrange.1 (not_lt.2 hlarge)))

/-! ## The sign bit -/

/-- The sign is the highest of the 64 bits, and the others are the exponent and fraction bits. -/
theorem toBits_fields {x : Binary64} (h : x.magnitude ≤ infinity) :
    x.toBits < 2 ^ 64 ∧ x.toBits.testBit 63 = x.negative ∧ x.toBits % 2 ^ 63 = x.magnitude := by
  have hlt : x.magnitude < 2 ^ 63 := h.trans_lt (by decide)
  rw [Nat.testBit_eq_decide_div_mod_eq]
  cases hsign : x.negative with
  | true =>
    rw [toBits, hsign, if_pos rfl, Nat.shiftLeft_eq, Nat.one_mul, decide_eq_true_iff]
    omega
  | false =>
    rw [toBits, hsign, if_neg Bool.false_ne_true, Nat.zero_add, decide_eq_false_iff_not]
    omega

end Binary64

end Descent
