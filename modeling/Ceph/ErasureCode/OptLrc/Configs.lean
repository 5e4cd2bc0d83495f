import Ceph.ErasureCode.Base

/-!
# The generator matrices of the Optimal-LRC plugin

The tables of `ErasureCodeOptLrc_configs.h`, entry by entry, and the lookup
`configs[n][k][r]`.  Row `i` of a matrix gives chunk `i` as a combination of the
`k` data chunks; the local group of chunk `i` is `i / (r + 1)`.

The struct's `optlrc_perm` and `optlrc_coef` are never initialised or read and
are left out.
-/

namespace Ceph.OptLrc

/-- `struct OptLRC`: the generator matrix, row by row.  The C array is
`256 × 256` and zero outside the entries listed. -/
structure OptLRC where
  optlrcEncode : List (List ℕ)

/-- `optlrc_encode[i][j]`. -/
def OptLRC.entry (g : OptLRC) (i j : ℕ) : ℕ := (g.optlrcEncode.getD i []).getD j 0

def optlrc_9_4_2 : OptLRC where
  optlrcEncode := [[1,0,0,0], [0,1,0,0], [1,1,0,0], [0,0,1,0], [0,0,0,1], [0,0,1,1], [176,2,212,1],
    [178,176,213,212], [2,178,1,213]]

def optlrc_10_6_4 : OptLRC where
  optlrcEncode := [[1,0,0,0,0,0], [0,1,0,0,0,0], [0,0,1,0,0,0], [0,0,0,1,0,0], [1,1,1,1,0,0],
    [0,0,0,0,1,0], [0,0,0,0,0,1], [112,153,7,224,220,11], [227,123,248,41,146,78],
    [147,226,255,201,79,68]]

def optlrc_10_6_3 : OptLRC where
  optlrcEncode := [[1,0,0,0,0,0], [0,1,0,0,0,0], [0,0,1,0,0,0], [1,1,1,0,0,0], [0,0,0,1,0,0],
    [0,0,0,0,1,0], [0,0,0,0,0,1], [0,0,0,1,1,1], [170,204,102,169,206,103],
    [170,204,102,169,206,103]]

def optlrc_15_8_4 : OptLRC where
  optlrcEncode := [[1,0,0,0,0,0,0,0], [0,1,0,0,0,0,0,0], [0,0,1,0,0,0,0,0], [0,0,0,1,0,0,0,0],
    [1,1,1,1,0,0,0,0], [0,0,0,0,1,0,0,0], [0,0,0,0,0,1,0,0], [0,0,0,0,0,0,1,0], [0,0,0,0,0,0,0,1],
    [0,0,0,0,1,1,1,1], [86,235,136,16,23,11,47,24], [16,70,251,152,47,56,55,36],
    [189,222,70,86,28,15,23,56], [99,251,235,189,19,36,28,11], [152,136,222,99,55,24,19,15]]

def optlrc_15_8_5 : OptLRC where
  optlrcEncode := [[1,0,0,0,0,0,0,0], [0,1,0,0,0,0,0,0], [0,0,1,0,0,0,0,0], [0,0,0,1,0,0,0,0],
    [0,0,0,0,1,0,0,0], [1,1,1,1,1,0,0,0], [0,0,0,0,0,1,0,0], [0,0,0,0,0,0,1,0], [0,0,0,0,0,0,0,1],
    [232,80,103,155,148,128,27,165], [68,242,180,56,205,77,186,106],
    [172,162,211,163,89,204,160,206], [48,138,106,4,93,3,197,126], [52,12,126,43,72,214,101,194],
    [4,134,20,47,21,213,160,188]]

def optlrc_16_12_7 : OptLRC where
  optlrcEncode := [[1,0,0,0,0,0,0,0,0,0,0,0], [0,1,0,0,0,0,0,0,0,0,0,0], [0,0,1,0,0,0,0,0,0,0,0,0],
    [0,0,0,1,0,0,0,0,0,0,0,0], [0,0,0,0,1,0,0,0,0,0,0,0], [0,0,0,0,0,1,0,0,0,0,0,0],
    [0,0,0,0,0,0,1,0,0,0,0,0], [1,1,1,1,1,1,1,0,0,0,0,0], [0,0,0,0,0,0,0,1,0,0,0,0],
    [0,0,0,0,0,0,0,0,1,0,0,0], [0,0,0,0,0,0,0,0,0,1,0,0], [0,0,0,0,0,0,0,0,0,0,1,0],
    [0,0,0,0,0,0,0,0,0,0,0,1], [7,7,6,6,1,1,0,7,7,6,6,1], [9,8,9,8,1,0,1,9,8,9,8,1],
    [14,15,15,14,0,1,1,15,14,14,15,1]]

def optlrc_18_12_3 : OptLRC where
  optlrcEncode := [[1,0,0,0,0,0,0,0,0,0,0,0], [0,1,0,0,0,0,0,0,0,0,0,0], [0,0,1,0,0,0,0,0,0,0,0,0],
    [1,1,1,0,0,0,0,0,0,0,0,0], [0,0,0,1,0,0,0,0,0,0,0,0], [0,0,0,0,1,0,0,0,0,0,0,0],
    [0,0,0,0,0,1,0,0,0,0,0,0], [0,0,0,1,1,1,0,0,0,0,0,0], [0,0,0,0,0,0,1,0,0,0,0,0],
    [0,0,0,0,0,0,0,1,0,0,0,0], [0,0,0,0,0,0,0,0,1,0,0,0], [0,0,0,0,0,0,1,1,1,0,0,0],
    [0,0,0,0,0,0,0,0,0,1,0,0], [0,0,0,0,0,0,0,0,0,0,1,0], [0,0,0,0,0,0,0,0,0,0,0,1],
    [0,0,0,0,0,0,0,0,0,1,1,1], [159,234,117,155,25,130,104,187,211,111,74,37],
    [159,234,117,155,25,130,104,187,211,111,74,37]]

def optlrc_18_12_4 : OptLRC where
  optlrcEncode := [[1,0,0,0,0,0,0,0,0,0,0,0], [0,1,0,0,0,0,0,0,0,0,0,0], [0,0,1,0,0,0,0,0,0,0,0,0],
    [0,0,0,1,0,0,0,0,0,0,0,0], [1,1,1,1,0,0,0,0,0,0,0,0], [0,0,0,0,1,0,0,0,0,0,0,0],
    [0,0,0,0,0,1,0,0,0,0,0,0], [0,0,0,0,0,0,1,0,0,0,0,0], [0,0,0,0,0,0,0,1,0,0,0,0],
    [0,0,0,0,1,1,1,1,0,0,0,0], [0,0,0,0,0,0,0,0,1,0,0,0], [0,0,0,0,0,0,0,0,0,1,0,0],
    [0,0,0,0,0,0,0,0,0,0,1,0], [0,0,0,0,0,0,0,0,0,0,0,1], [0,0,0,0,0,0,0,0,1,1,1,1],
    [205,54,32,181,62,38,66,53,228,75,17,158], [231,86,150,62,46,214,195,155,16,22,30,102],
    [42,96,182,139,16,240,129,174,244,93,15,248]]

def optlrc_15_10_4 : OptLRC where
  optlrcEncode := [[1,0,0,0,0,0,0,0,0,0], [0,1,0,0,0,0,0,0,0,0], [0,0,1,0,0,0,0,0,0,0],
    [0,0,0,1,0,0,0,0,0,0], [1,1,1,1,0,0,0,0,0,0], [0,0,0,0,1,0,0,0,0,0], [0,0,0,0,0,1,0,0,0,0],
    [0,0,0,0,0,0,1,0,0,0], [0,0,0,0,0,0,0,1,0,0], [0,0,0,0,1,1,1,1,0,0], [0,0,0,0,0,0,0,0,1,0],
    [0,0,0,0,0,0,0,0,0,1], [152,115,183,65,219,218,45,155,79,68],
    [121,69,236,253,104,102,226,181,220,11], [225,54,91,188,179,188,207,46,146,78]]

def optlrc_14_10_4 : OptLRC where
  optlrcEncode := [[1,0,0,0,0,0,0,0,0,0], [0,1,0,0,0,0,0,0,0,0], [0,0,1,0,0,0,0,0,0,0],
    [0,0,0,1,0,0,0,0,0,0], [1,1,1,1,0,0,0,0,0,0], [0,0,0,0,1,0,0,0,0,0], [0,0,0,0,0,1,0,0,0,0],
    [0,0,0,0,0,0,1,0,0,0], [0,0,0,0,0,0,0,1,0,0], [0,0,0,0,1,1,1,1,0,0], [0,0,0,0,0,0,0,0,1,0],
    [0,0,0,0,0,0,0,0,0,1], [12,116,99,245,224,110,73,107,11,79],
    [12,116,99,245,224,110,73,107,10,78]]

def optlrc_12_8_3 : OptLRC where
  optlrcEncode := [[1,0,0,0,0,0,0,0], [0,1,0,0,0,0,0,0], [0,0,1,0,0,0,0,0], [1,1,1,0,0,0,0,0],
    [0,0,0,1,0,0,0,0], [0,0,0,0,1,0,0,0], [0,0,0,0,0,1,0,0], [0,0,0,1,1,1,0,0], [0,0,0,0,0,0,1,0],
    [0,0,0,0,0,0,0,1], [170,204,102,169,206,103,3,2], [170,204,102,169,206,103,2,3]]

def optlrc_12_8_4 : OptLRC where
  optlrcEncode := [[1,0,0,0,0,0,0,0], [0,1,0,0,0,0,0,0], [0,0,1,0,0,0,0,0], [0,0,0,1,0,0,0,0],
    [1,1,1,1,0,0,0,0], [0,0,0,0,1,0,0,0], [0,0,0,0,0,1,0,0], [0,0,0,0,0,0,1,0], [0,0,0,0,0,0,0,1],
    [0,0,0,0,1,1,1,1], [150,99,111,23,34,107,5,139], [150,99,111,23,34,107,5,139]]

def optlrc_17_12_4 : OptLRC where
  optlrcEncode := [[1,0,0,0,0,0,0,0,0,0,0,0], [0,1,0,0,0,0,0,0,0,0,0,0], [0,0,1,0,0,0,0,0,0,0,0,0],
    [0,0,0,1,0,0,0,0,0,0,0,0], [1,1,1,1,0,0,0,0,0,0,0,0], [0,0,0,0,1,0,0,0,0,0,0,0],
    [0,0,0,0,0,1,0,0,0,0,0,0], [0,0,0,0,0,0,1,0,0,0,0,0], [0,0,0,0,0,0,0,1,0,0,0,0],
    [0,0,0,0,1,1,1,1,0,0,0,0], [0,0,0,0,0,0,0,0,1,0,0,0], [0,0,0,0,0,0,0,0,0,1,0,0],
    [0,0,0,0,0,0,0,0,0,0,1,0], [0,0,0,0,0,0,0,0,0,0,0,1], [0,0,0,0,0,0,0,0,1,1,1,1],
    [148,117,241,176,91,15,212,61,147,220,69,11], [148,117,241,176,91,15,212,61,147,220,69,11]]

def optlrc_14_10_6 : OptLRC where
  optlrcEncode := [[1,0,0,0,0,0,0,0,0,0], [0,1,0,0,0,0,0,0,0,0], [0,0,1,0,0,0,0,0,0,0],
    [0,0,0,1,0,0,0,0,0,0], [0,0,0,0,1,0,0,0,0,0], [0,0,0,0,0,1,0,0,0,0], [1,1,1,1,1,1,0,0,0,0],
    [0,0,0,0,0,0,1,0,0,0], [0,0,0,0,0,0,0,1,0,0], [0,0,0,0,0,0,0,0,1,0], [0,0,0,0,0,0,0,0,0,1],
    [213,208,18,5,199,194,230,231,231,1], [143,64,79,207,192,15,85,84,85,1],
    [90,144,93,202,7,205,178,178,179,1]]

def optlrc_14_10_5 : OptLRC where
  optlrcEncode := [[1,0,0,0,0,0,0,0,0,0], [0,1,0,0,0,0,0,0,0,0], [0,0,1,0,0,0,0,0,0,0],
    [0,0,0,1,0,0,0,0,0,0], [0,0,0,0,1,0,0,0,0,0], [1,1,1,1,1,0,0,0,0,0], [0,0,0,0,0,1,0,0,0,0],
    [0,0,0,0,0,0,1,0,0,0], [0,0,0,0,0,0,0,1,0,0], [0,0,0,0,0,0,0,0,1,0], [0,0,0,0,0,0,0,0,0,1],
    [0,0,0,0,0,1,1,1,1,1], [48,197,111,164,62,137,170,155,66,250],
    [48,197,111,164,62,137,170,155,66,250]]

def optlrc_12_8_5 : OptLRC where
  optlrcEncode := [[1,0,0,0,0,0,0,0], [0,1,0,0,0,0,0,0], [0,0,1,0,0,0,0,0], [0,0,0,1,0,0,0,0],
    [0,0,0,0,1,0,0,0], [1,1,1,1,1,0,0,0], [0,0,0,0,0,1,0,0], [0,0,0,0,0,0,1,0], [0,0,0,0,0,0,0,1],
    [8,167,172,102,101,155,87,205], [71,201,43,159,58,87,212,130], [79,110,135,249,95,205,130,78]]

def optlrc_17_12_5 : OptLRC where
  optlrcEncode := [[1,0,0,0,0,0,0,0,0,0,0,0], [0,1,0,0,0,0,0,0,0,0,0,0], [0,0,1,0,0,0,0,0,0,0,0,0],
    [0,0,0,1,0,0,0,0,0,0,0,0], [0,0,0,0,1,0,0,0,0,0,0,0], [1,1,1,1,1,0,0,0,0,0,0,0],
    [0,0,0,0,0,1,0,0,0,0,0,0], [0,0,0,0,0,0,1,0,0,0,0,0], [0,0,0,0,0,0,0,1,0,0,0,0],
    [0,0,0,0,0,0,0,0,1,0,0,0], [0,0,0,0,0,0,0,0,0,1,0,0], [0,0,0,0,0,1,1,1,1,1,0,0],
    [0,0,0,0,0,0,0,0,0,0,1,0], [0,0,0,0,0,0,0,0,0,0,0,1], [101,94,86,187,214,9,169,44,23,155,50,80],
    [220,46,166,1,85,163,141,40,168,174,85,102], [185,112,240,186,131,170,36,4,191,53,102,55]]

def optlrc_17_12_6 : OptLRC where
  optlrcEncode := [[1,0,0,0,0,0,0,0,0,0,0,0], [0,1,0,0,0,0,0,0,0,0,0,0], [0,0,1,0,0,0,0,0,0,0,0,0],
    [0,0,0,1,0,0,0,0,0,0,0,0], [0,0,0,0,1,0,0,0,0,0,0,0], [0,0,0,0,0,1,0,0,0,0,0,0],
    [1,1,1,1,1,1,0,0,0,0,0,0], [0,0,0,0,0,0,1,0,0,0,0,0], [0,0,0,0,0,0,0,1,0,0,0,0],
    [0,0,0,0,0,0,0,0,1,0,0,0], [0,0,0,0,0,0,0,0,0,1,0,0], [0,0,0,0,0,0,0,0,0,0,1,0],
    [0,0,0,0,0,0,0,0,0,0,0,1], [0,0,0,0,0,0,1,1,1,1,1,1],
    [196,227,138,77,58,156,109,215,85,49,160,194], [94,109,138,69,8,68,67,113,227,131,17,248],
    [242,76,30,116,81,35,72,150,224,17,163,143]]

def optlrc_15_10_5 : OptLRC where
  optlrcEncode := [[1,0,0,0,0,0,0,0,0,0], [0,1,0,0,0,0,0,0,0,0], [0,0,1,0,0,0,0,0,0,0],
    [0,0,0,1,0,0,0,0,0,0], [0,0,0,0,1,0,0,0,0,0], [1,1,1,1,1,0,0,0,0,0], [0,0,0,0,0,1,0,0,0,0],
    [0,0,0,0,0,0,1,0,0,0], [0,0,0,0,0,0,0,1,0,0], [0,0,0,0,0,0,0,0,1,0], [0,0,0,0,0,0,0,0,0,1],
    [0,0,0,0,0,1,1,1,1,1], [208,180,38,113,51,191,4,124,10,205],
    [77,31,237,41,150,199,94,237,170,222], [157,171,203,88,165,120,90,145,160,19]]

/-- The entries the constructor of `OptLRC_Configs` fills in, as
`((total chunks, data chunks, locality), matrix)`. -/
def optLRCConfigs : List ((ℕ × ℕ × ℕ) × OptLRC) := [((9, 4, 2), optlrc_9_4_2),
  ((10, 6, 4), optlrc_10_6_4), ((10, 6, 3), optlrc_10_6_3), ((15, 8, 4), optlrc_15_8_4),
  ((15, 8, 5), optlrc_15_8_5), ((16, 12, 7), optlrc_16_12_7), ((18, 12, 3), optlrc_18_12_3),
  ((18, 12, 4), optlrc_18_12_4), ((15, 10, 4), optlrc_15_10_4), ((15, 10, 5), optlrc_15_10_5),
  ((14, 10, 4), optlrc_14_10_4), ((14, 10, 5), optlrc_14_10_5), ((14, 10, 6), optlrc_14_10_6),
  ((12, 8, 3), optlrc_12_8_3), ((12, 8, 4), optlrc_12_8_4), ((12, 8, 5), optlrc_12_8_5),
  ((17, 12, 4), optlrc_17_12_4), ((17, 12, 5), optlrc_17_12_5), ((17, 12, 6), optlrc_17_12_6)]

/-! ## What the tables have in common -/

/-- The column of the unit row `i`, if row `i` is one of the first `k` unit
vectors. -/
def OptLRC.unitRow (g : OptLRC) (k i : ℕ) : Option ℕ :=
  (List.range k).find? fun j => (List.range k).all fun j' => g.entry i j' == if j' = j then 1 else 0

/-- The unit rows, from top to bottom. -/
def OptLRC.unitRows (g : OptLRC) (n k : ℕ) : List ℕ :=
  (List.range n).filter fun i => (g.unitRow k i).isSome

/-- The sum of column `j` over the rows of local group `grp`. -/
def OptLRC.columnSum (g : OptLRC) (n r grp j : ℕ) : Byte :=
  ∑ i ∈ Finset.range n with i / (r + 1) = grp, Byte.ofNat (g.entry i j)

theorem entry_of_unitRow {g : OptLRC} {k i j : ℕ} (h : g.unitRow k i = some j) :
    j < k ∧ ∀ j' < k, g.entry i j' = if j' = j then 1 else 0 := by
  have hall := List.find?_some h
  have hmem := List.mem_of_find?_eq_some h
  simp only [List.all_eq_true, List.mem_range, beq_iff_eq] at hall hmem
  exact ⟨hmem, hall⟩

/-- In every registered matrix the unit rows are `k` in number and stand in
column order. -/
theorem unitRows_in_column_order : ∀ e ∈ optLRCConfigs,
    (e.2.unitRows e.1.1 e.1.2.1).map (e.2.unitRow e.1.2.1) = (List.range e.1.2.1).map some := by
  decide +kernel

/-- Every chunk has a companion in its local group. -/
theorem exists_companion : ∀ e ∈ optLRCConfigs, ∀ i < e.1.1,
    ∃ i' < e.1.1, i' ≠ i ∧ i' / (e.1.2.2 + 1) = i / (e.1.2.2 + 1) := by
  decide +kernel

/-- Except in the matrix for `(17, 12, 6)`, the rows of every local group cancel
in every column. -/
theorem columnSum_eq_zero : ∀ e ∈ optLRCConfigs, e.1 ≠ (17, 12, 6) → ∀ grp < e.1.1, ∀ j < e.1.2.1,
    e.2.columnSum e.1.1 e.1.2.2 grp j = 0 := by
  decide +kernel

/-- What is left in each column of the last local group of the matrix for
`(17, 12, 6)`: rows 14, 15 and 16 do not cancel. -/
def defect_17_12_6 : List ℕ := [104, 194, 30, 124, 99, 251, 102, 48, 86, 163, 18, 181]

theorem columnSum_17_12_6 : ∀ grp < 17, ∀ j < 12, optlrc_17_12_6.columnSum 17 6 grp j =
    if grp = 2 then Byte.ofNat (defect_17_12_6.getD j 0) else 0 := by
  decide +kernel

/-! ## The lookup -/

/-- `configs[n][k][r]`.  The array is a local variable whose other entries are
never written, so reading one of them is not defined. -/
def configs (n k r : ℕ) : Option OptLRC := optLRCConfigs.lookup (n, k, r)

theorem mem_of_configs {n k r : ℕ} {g : OptLRC} (h : configs n k r = some g) :
    ((n, k, r), g) ∈ optLRCConfigs := by
  obtain ⟨l₁, l₂, hl, -⟩ := List.lookup_eq_some_iff.1 h
  rw [hl]
  exact List.mem_append_right _ List.mem_cons_self

end Ceph.OptLrc
