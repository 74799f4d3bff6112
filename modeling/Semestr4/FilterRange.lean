import Mathlib.Algebra.BigOperators.Field
import Mathlib.Algebra.BigOperators.Intervals
import Mathlib.Algebra.BigOperators.Ring.Finset
import Mathlib.Algebra.Order.BigOperators.Group.Finset
import Semestr4.FilterRoundTrip
import Semestr4.ImageBounds

/-!
# The range of a filtered image

The exact entries of a generated filter add up to less than one. Rounded to six
decimals they may add up to more, if there are many of them, and then the output
of a white image leaves the range of its samples. What is added by reading them as
doubles is too little to matter.
-/

set_option autoImplicit false

namespace Semestr4.FilterRange
open Semestr4.SharedWrites Semestr4.ImageFilter Semestr4.ImageColumns Semestr4.ImageBounds
open Semestr4.BinaryRounding Semestr4.RealText Semestr4.FilterFile Semestr4.FilterRoundTrip

structure Filtered (f : Filter) (g : Globals) : Prop where
  filterSize : (g.filterSize : ℤ) = f.filterSize
  filter : g.filter = f.result
  samples : ∀ r < g.height, ∀ c < g.width, 0 ≤ g.input r c ∧ g.input r c ≤ 255

def InRange (g : Globals) : Prop :=
  ∀ segment < g.numOfThreads, ∀ w ∈ calculate g segment, 0 ≤ w.value ∧ w.value ≤ 255

def total (size : ℕ) (rand : ℕ → ℕ) : ℕ :=
  ∑ k ∈ Finset.range (size*size), millionths (quotient size (rand k))

theorem natCast_le {n : ℕ} : n ≤ 1001960 ↔ (n : ℚ) < 1001961 := by
  rw [← Nat.lt_succ_iff, ← @Nat.cast_lt ℚ]
  norm_num

theorem sum_shift (f : ℕ → ℚ) (n : ℕ) :
    ∑ i ∈ Finset.Icc 1 n, f (i-1) = ∑ i ∈ Finset.range n, f i := by
  induction n with
  | zero => rfl
  | succ n ih =>
    rw [Finset.sum_Icc_succ_top (by omega), ih, Finset.sum_range_succ, Nat.add_sub_cancel]

theorem sum_rows (f : ℕ → ℚ) (n m : ℕ) :
    ∑ i ∈ Finset.range n, ∑ j ∈ Finset.range m, f (i*m+j) = ∑ k ∈ Finset.range (n*m), f k := by
  induction n with
  | zero => simp
  | succ n ih => rw [Finset.sum_range_succ, ih, Nat.succ_mul, Finset.sum_range_add]

def weight (g : Globals) : ℚ :=
  ∑ i ∈ Finset.range g.filterSize, ∑ j ∈ Finset.range g.filterSize, g.filter i j

theorem weight_icc (g : Globals) : weight g =
    ∑ i ∈ Finset.Icc 1 g.filterSize, ∑ j ∈ Finset.Icc 1 g.filterSize, g.filter (i-1) (j-1) := by
  rw [weight, ← sum_shift]
  exact Finset.sum_congr rfl fun i _ => (sum_shift (g.filter (i-1)) _).symm

section
variable {g : Globals}

theorem term_range (hfilter : ∀ i j, 0 ≤ g.filter i j)
    (hsamples : ∀ r < g.height, ∀ c < g.width, 0 ≤ g.input r c ∧ g.input r c ≤ 255)
    (x y i j : ℕ) : 0 ≤ term g x y i j ∧ term g x y i j ≤ 255*g.filter (i-1) (j-1) := by
  have hentry := hfilter (i-1) (j-1)
  unfold term
  split
  · rename_i hguard
    have hrow := clamped_pos g x i
    have hcolumn := clamped_pos g y j
    obtain ⟨hlow, hhigh⟩ := hsamples (clamped g x i-1).toNat (by omega) (clamped g y j-1).toNat
      (by omega)
    exact ⟨mul_nonneg (by exact_mod_cast hlow) hentry,
      mul_le_mul_of_nonneg_right (by exact_mod_cast hhigh) hentry⟩
  · exact ⟨le_refl _, mul_nonneg (by norm_num) hentry⟩

theorem result_range (hfilter : ∀ i j, 0 ≤ g.filter i j)
    (hsamples : ∀ r < g.height, ∀ c < g.width, 0 ≤ g.input r c ∧ g.input r c ≤ 255)
    (x y : ℕ) : 0 ≤ result g x y ∧ result g x y ≤ 255*weight g := by
  have hterm := term_range hfilter hsamples x y
  rw [result_sum, weight_icc]
  constructor
  · exact Finset.sum_nonneg fun i _ => Finset.sum_nonneg fun j _ => (hterm i j).1
  · simp only [Finset.mul_sum]
    exact Finset.sum_le_sum fun i _ => Finset.sum_le_sum fun j _ => (hterm i j).2

end

theorem roundAway_le {q : ℚ} (h : 0 ≤ q) {n : ℤ} : roundAway q ≤ n ↔ q+1/2 < n+1 := by
  rw [roundAway, if_pos h, ← Int.lt_add_one_iff, Int.floor_lt]
  push_cast
  rfl

theorem roundAway_nonneg {q : ℚ} (h : 0 ≤ q) : 0 ≤ roundAway q := by
  rw [roundAway, if_pos h]
  exact Int.floor_nonneg.mpr (by linarith)

/-- The entries of the file, each as it is read. -/
def stored (read : ℚ → ℚ) (size : ℕ) (rand : ℕ → ℕ) : Filter :=
  ⟨size, (List.range (size*size)).map fun i => read (millionths (quotient size (rand i))/10^6)⟩

def generated : ℕ → (ℕ → ℕ) → Filter := stored double

/-- The entries as they are written. -/
def printed : ℕ → (ℕ → ℕ) → Filter := stored id

section
variable {read : ℚ → ℚ} {size : ℕ} {rand : ℕ → ℕ}

theorem stored_nonneg (hread : Accurate read) (i j : ℕ) :
    0 ≤ (stored read size rand).result i j := by
  rw [Filter.result, List.getD_eq_getElem?_getD]
  cases h : (stored read size rand).stores[i*(stored read size rand).filterSize.toNat+j]? with
  | none => exact le_refl _
  | some q =>
    obtain ⟨k, -, rfl⟩ := List.mem_map.mp (List.mem_of_getElem? h)
    exact hread.nonneg (div_nonneg (Nat.cast_nonneg _) (by norm_num))

theorem stored_weight {g : Globals} (h : Filtered (stored read size rand) g) :
    weight g = ∑ k ∈ Finset.range (size*size),
      read (millionths (quotient size (rand k))/10^6) := by
  have hcast : (g.filterSize : ℤ) = (size : ℤ) := h.filterSize
  have hsize : g.filterSize = size := by exact_mod_cast hcast
  rw [weight, h.filter, hsize, ← sum_rows]
  refine Finset.sum_congr rfl fun i hi => Finset.sum_congr rfl fun j hj => ?_
  exact result_millionths read (Finset.mem_range.mp hi) (Finset.mem_range.mp hj)

theorem total_eq : (total size rand : ℚ)/10^6 =
    ∑ k ∈ Finset.range (size*size), (millionths (quotient size (rand k)) : ℚ)/10^6 := by
  rw [total, Nat.cast_sum, Finset.sum_div]

/-- The entries read add up to almost the same as those written. -/
theorem weight_error (hread : Accurate read) {g : Globals}
    (h : Filtered (stored read size rand) g) :
    |weight g-(total size rand : ℚ)/10^6| ≤ (total size rand : ℚ)/10^6/2^53 := by
  rw [stored_weight h, total_eq, ← Finset.sum_sub_distrib, Finset.sum_div]
  refine (Finset.abs_sum_le_sum_abs _ _).trans (Finset.sum_le_sum fun k _ => ?_)
  have hnormal := normal_fraction (millionths (quotient size (rand k))) (d := 10^6) (by norm_num)
  rw [Nat.cast_pow, Nat.cast_ofNat] at hnormal
  exact hread.error (div_nonneg (Nat.cast_nonneg _) (by norm_num)) hnormal

theorem range_of_total (hread : Accurate read) (hle : total size rand ≤ 1001960)
    {g : Globals} (h : Filtered (stored read size rand) g) : InRange g := by
  intro segment hsegment w hw
  obtain ⟨r, c, -, -, rfl⟩ := mem_calculate.mp hw
  have hfilter : ∀ i j, 0 ≤ g.filter i j := fun i j => h.filter ▸ stored_nonneg hread i j
  obtain ⟨hlow, hhigh⟩ := result_range hfilter h.samples (r+1) (c+1)
  have htotal : (total size rand : ℚ) ≤ 1001960 := by exact_mod_cast hle
  have herror := (abs_le.mp (weight_error hread h)).2
  refine ⟨roundAway_nonneg hlow, (roundAway_le hlow).mpr ?_⟩
  push_cast
  linarith

def white (size : ℕ) (f : Filter) : Globals where
  width := size
  height := size
  filterSize := size
  numOfThreads := 1
  input := fun _ _ => 255
  filter := f.result

theorem white_filtered : Filtered (stored read size rand) (white size (stored read size rand)) :=
  ⟨rfl, rfl, fun _ _ _ _ => ⟨by simp [white], by simp [white]⟩⟩

theorem white_result (f : Filter) : result (white size f) ((size+1)/2) ((size+1)/2) =
    255*weight (white size f) := by
  have hclamped : ∀ i ∈ Finset.Icc 1 size, clamped (white size f) ((size+1)/2) i = i := by
    intro i hi
    have hpos := (Finset.mem_Icc.mp hi).1
    have hcentre : ((size+1)/2 : ℕ) = centre (white size f) := by
      simp only [centre, white]
      omega
    rw [clamped, hcentre]
    split <;> omega
  rw [result_sum, weight_icc, Finset.mul_sum]
  refine Finset.sum_congr rfl fun i hi => ?_
  rw [Finset.mul_sum]
  refine Finset.sum_congr rfl fun j hj => ?_
  have hlast := (Finset.mem_Icc.mp hi).2
  have hlast' := (Finset.mem_Icc.mp hj).2
  have hguard : clamped (white size f) ((size+1)/2) i-1 < (white size f).height ∧
      clamped (white size f) ((size+1)/2) j-1 < (white size f).width := by
    rw [hclamped i hi, hclamped j hj]
    simp only [white] at hlast hlast' ⊢
    omega
  rw [term, if_pos hguard]
  norm_num [white]

theorem total_of_range (hread : Accurate read) (h1 : 1 ≤ size)
    (h : InRange (white size (stored read size rand))) : total size rand ≤ 1001960 := by
  have hfiltered := @white_filtered read size rand
  have hfilter : ∀ i j, 0 ≤ (white size (stored read size rand)).filter i j := stored_nonneg hread
  have hcovers : Covers (white size (stored read size rand)) 0 ((size+1)/2-1) := by
    simp only [Covers, minWidth, maxWidth, white]
    simp
    omega
  have hcell := mem_calculate.mpr ⟨(size+1)/2-1, (size+1)/2-1, (by simp only [white]; omega),
    hcovers, rfl⟩
  obtain ⟨-, hvalue⟩ := h 0 (by simp [white]) _ hcell
  have hmiddle : (size+1)/2-1+1 = (size+1)/2 := by omega
  have hlow := (result_range hfilter hfiltered.samples ((size+1)/2) ((size+1)/2)).1
  rw [assignment, hmiddle] at hvalue
  have hbound := (roundAway_le hlow).mp hvalue
  have herror := (abs_le.mp (weight_error hread hfiltered)).1
  rw [white_result] at hbound
  rw [natCast_le]
  push_cast at hbound
  linarith

theorem stored_range (hread : Accurate read) (h1 : 1 ≤ size) :
    (∀ g, Filtered (stored read size rand) g → InRange g) ↔ total size rand ≤ 1001960 :=
  ⟨fun hrange => total_of_range hread h1 (hrange _ white_filtered),
    fun hle _ => range_of_total hread hle⟩

end

theorem millionths_small {size : ℕ} (h1 : 1 ≤ size) (h : size*size < 2^31) (r : ℕ) :
    (millionths (quotient size r) : ℚ) ≤ 990001/(size*size : ℕ)+1/2 := by
  have hpos : (0 : ℚ) < (size*size : ℕ) := by exact_mod_cast Nat.mul_pos h1 h1
  have hr : ((r % 100 : ℕ) : ℚ) ≤ 99 := by
    exact_mod_cast Nat.le_of_lt_succ (Nat.mod_lt r (by decide : 0 < 100))
  have hexact : ((r % 100 : ℕ) : ℚ)/(100*(size*size) : ℕ) ≤ 99/100/(size*size : ℕ) := by
    rw [Nat.cast_mul 100, ← div_div]
    exact div_le_div_of_nonneg_right (by push_cast; linarith) hpos.le
  have herror := (abs_le.mp (double_error (exact_nonneg size r) (exact_normal h r))).2
  have hround := (abs_le.mp (roundEven_error (quotient size r*10^6))).2
  have hnat : (millionths (quotient size r) : ℚ) = roundEven (quotient size r*10^6) := by
    exact_mod_cast millionths_natCast (quotient_nonneg h r)
  rw [← quotient_eq h] at herror
  have hscale : (990001 : ℚ)/(size*size : ℕ) = 99/100/(size*size : ℕ)*(990001*100/99) := by ring
  have hnonneg : (0 : ℚ) ≤ 99/100/(size*size : ℕ) := div_nonneg (by norm_num) hpos.le
  rw [hnat, hscale]
  linarith

/-- Up to 154 rows the rounding cannot add enough. -/
theorem total_small {size : ℕ} (h1 : 1 ≤ size) (hsmall : size ≤ 154) (rand : ℕ → ℕ) :
    total size rand ≤ 1001960 := by
  have hsquare : size*size ≤ 154*154 := Nat.mul_le_mul hsmall hsmall
  have hpos : (0 : ℚ) < (size*size : ℕ) := by exact_mod_cast Nat.mul_pos h1 h1
  have hsum : (total size rand : ℚ) ≤ (size*size : ℕ)*(990001/(size*size : ℕ)+1/2) := by
    rw [total, Nat.cast_sum, ← nsmul_eq_mul]
    have hcard := Finset.sum_le_card_nsmul (Finset.range (size*size))
      (fun k => (millionths (quotient size (rand k)) : ℚ)) _
      fun k _ => millionths_small h1 (by omega) (rand k)
    rwa [Finset.card_range] at hcard
  have hhalf : ((size*size : ℕ) : ℚ) ≤ 154*154 := by exact_mod_cast hsquare
  rw [mul_add, mul_div_cancel₀ _ hpos.ne'] at hsum
  rw [natCast_le]
  linarith

/-- Every image stays in range under the filter, with the entries as written or as
read, if and only if the entries written add up to at most 1.00196. -/
theorem in_range_iff (size : ℕ) (h1 : 1 ≤ size) (h : size*size < 2^31) (rand : ℕ → ℕ) :
    ((∀ g, Filtered (printed size rand) g → InRange g) ↔ total size rand ≤ 1001960) ∧
    ∃ f, parseFilter (generator size rand) = some f ∧
      ((∀ g, Filtered f g → InRange g) ↔ total size rand ≤ 1001960) :=
  ⟨stored_range accurate_id h1, generated size rand, parseFilter_generator h1 h rand,
    stored_range accurate_double h1⟩

theorem in_range_four : (∀ g, Filtered (printed 4 fun i => 7*i) g → InRange g) ∧
    ∃ f, parseFilter (generator 4 fun i => 7*i) = some f ∧ ∀ g, Filtered f g → InRange g := by
  have htotal := total_small (by decide) (by decide : 4 ≤ 154) fun i => 7*i
  obtain ⟨hprinted, f, hparse, hrange⟩ := in_range_iff 4 (by decide) (by decide) fun i => 7*i
  exact ⟨hprinted.mpr htotal, f, hparse, hrange.mpr htotal⟩

theorem small_in_range {size : ℕ} (h1 : 1 ≤ size) (hsmall : size ≤ 154) (rand : ℕ → ℕ)
    {g : Globals} (h : Filtered (generated size rand) g) : InRange g :=
  range_of_total accurate_double (total_small h1 hsmall rand) h

theorem roundEven_above {q : ℚ} {z : ℤ} (hlow : z+1/2 < q) (hhigh : q < z+3/2) :
    roundEven q = z+1 := by
  obtain ⟨herror, herror'⟩ := abs_le.mp (roundEven_error q)
  have habove : (z : ℚ) < roundEven q := by linarith
  have hbelow : (roundEven q : ℚ) < z+2 := by linarith
  have habove' : z < roundEven q := by exact_mod_cast habove
  have hbelow' : roundEven q < z+2 := by exact_mod_cast hbelow
  omega

theorem millionths_large : millionths (quotient 1400 99) = 1 := by
  have hexact : ((99 % 100 : ℕ) : ℚ)/(100*(1400*1400) : ℕ) = 99/196000000 := by norm_num
  have hquotient := quotient_eq (by norm_num : 1400*1400 < 2^31) 99
  have hnormal := exact_normal (by norm_num : 1400*1400 < 2^31) 99
  rw [hexact] at hquotient hnormal
  obtain ⟨hlow, hhigh⟩ := abs_le.mp (double_error (by norm_num) hnormal)
  rw [← hquotient] at hlow hhigh
  have hround : roundEven (quotient 1400 99*10^6) = 0+1 :=
    roundEven_above (by norm_num at hlow ⊢; linarith) (by norm_num at hhigh ⊢; linarith)
  rw [millionths, hround]
  rfl

theorem total_large : total 1400 (fun _ => 99) = 1960000 := by
  simp only [total, millionths_large, Finset.sum_const, Finset.card_range]
  norm_num

/-- All entries are written as 0.000001. -/
theorem white_out_of_range :
    (¬∀ size : ℕ, 1 ≤ size → size*size < 2^31 → ∀ (rand : ℕ → ℕ) (g : Globals),
      Filtered (printed size rand) g → InRange g) ∧
    ¬∀ size : ℕ, 1 ≤ size → size*size < 2^31 → ∀ (rand : ℕ → ℕ) (f : Filter),
      parseFilter (generator size rand) = some f → ∀ g, Filtered f g → InRange g := by
  have hlarge : ¬total 1400 (fun _ => 99) ≤ 1001960 := by
    rw [total_large]
    omega
  constructor
  · intro h
    exact hlarge ((stored_range accurate_id (by norm_num)).mp
      (h 1400 (by norm_num) (by norm_num) fun _ => 99))
  · intro h
    have hread := parseFilter_generator (by norm_num) (by norm_num : 1400*1400 < 2^31) fun _ => 99
    exact hlarge ((stored_range accurate_double (by norm_num)).mp
      (h 1400 (by norm_num) (by norm_num) (fun _ => 99) _ hread))

end Semestr4.FilterRange
