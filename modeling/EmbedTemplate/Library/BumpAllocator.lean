import Mathlib.Data.List.Basic
import Mathlib.Data.Nat.Basic
import Mathlib.Data.BitVec
import Mathlib.Tactic.Abel

/-! # An allocation pointer with alignment

Spans of given sizes, one behind the other, each aligned to its own size. On the numbers
they are apart from each other; on machine words the pointer wraps, and for sizes that are
powers of two the spans are the same as long as the last of them ends within the words.
-/
namespace EmbedTemplate.BumpAllocator

/-- The first multiple of `n` from `b` on. -/
def alignUp (n b : ℕ) : ℕ := (b + (n - 1)) / n * n

/-- Start and size of the spans of these sizes from `b` on. -/
def spans : ℕ → List ℕ → List (ℕ × ℕ)
  | _, [] => []
  | b, n :: ns => (alignUp n b,n) :: spans (alignUp n b + n) ns

/-- The end of the last span. -/
def finish : ℕ → List ℕ → ℕ
  | b, [] => b
  | b, n :: ns => finish (alignUp n b + n) ns

section Numbers
variable {n b m : ℕ} {ns : List ℕ}

theorem dvd_alignUp (n b : ℕ) : n ∣ alignUp n b := Nat.dvd_mul_left ..

theorem le_alignUp (hn : 0 < n) (b : ℕ) : b ≤ alignUp n b := by
  have hdiv := Nat.div_add_mod (b + (n - 1)) n
  have hmod := Nat.mod_lt (b + (n - 1)) hn
  rw [Nat.mul_comm] at hdiv
  rw [alignUp]
  omega

/-- Between multiples there is room for one more. -/
theorem add_le_of_dvd {a c : ℕ} (ha : n ∣ a) (hc : n ∣ c) (hlt : a < c) : a + n ≤ c := by
  obtain ⟨i,rfl⟩ := ha
  obtain ⟨j,rfl⟩ := hc
  rw [← Nat.mul_succ]
  exact Nat.mul_le_mul_left n (Nat.lt_of_mul_lt_mul_left hlt)

/-- It is the least such multiple. -/
theorem alignUp_le (hn : 0 < n) (hm : n ∣ m) (hb : b ≤ m) : alignUp n b ≤ m := by
  obtain ⟨c,rfl⟩ := hm
  have hc : (b + (n - 1)) / n ≤ c := by
    apply Nat.le_of_lt_succ
    rw [Nat.div_lt_iff_lt_mul hn,Nat.succ_mul,Nat.mul_comm]
    omega
  rw [alignUp,Nat.mul_comm n c]
  exact Nat.mul_le_mul_right n hc

theorem le_finish (hns : ∀ n ∈ ns, 0 < n) (b : ℕ) : b ≤ finish b ns := by
  induction ns generalizing b with
  | nil => exact Nat.le_refl b
  | cons n ns ih =>
    have hn := le_alignUp (hns n (List.mem_cons_self ..)) b
    have hrest := ih (fun k hk => hns k (List.mem_cons_of_mem _ hk)) (alignUp n b + n)
    rw [finish]
    omega

/-- Every span is aligned and lies between the first pointer and the last. -/
theorem mem_spans (hns : ∀ n ∈ ns, 0 < n) {a : ℕ} (h : (a,n) ∈ spans b ns) : n ∣ a ∧ b ≤ a ∧ a + n ≤ finish b ns := by
  induction ns generalizing b with
  | nil => cases h
  | cons k ns ih =>
    have hk := le_alignUp (hns k (List.mem_cons_self ..)) b
    have hns' : ∀ n ∈ ns, 0 < n := fun n hn => hns n (List.mem_cons_of_mem _ hn)
    rw [finish]
    rcases List.mem_cons.mp h with h | h
    · cases h
      exact ⟨dvd_alignUp n b,hk,le_finish hns' _⟩
    · obtain ⟨hdvd,hle,hend⟩ := ih hns' h
      exact ⟨hdvd,by omega,hend⟩

/-- A span ends before the later ones start. -/
theorem spans_ordered (hns : ∀ n ∈ ns, 0 < n) (b : ℕ) :
    (spans b ns).Pairwise fun p q => p.1 + p.2 ≤ q.1 := by
  induction ns generalizing b with
  | nil => exact List.Pairwise.nil
  | cons n ns ih =>
    have hns' : ∀ n ∈ ns, 0 < n := fun n hn => hns n (List.mem_cons_of_mem _ hn)
    exact List.pairwise_cons.mpr ⟨fun q hq => (mem_spans hns' hq).2.1,ih hns' _⟩

end Numbers

section Words
variable {w : ℕ}

/-- The alignment of a machine word by masking. -/
def alignWord (n b : BitVec w) : BitVec w := (b + (n - 1)) &&& ~~~(n - 1)

/-- The spans of a pointer that is a machine word. -/
def wordSpans : BitVec w → List (BitVec w) → List (BitVec w × BitVec w)
  | _, [] => []
  | b, n :: ns => (alignWord n b,n) :: wordSpans (alignWord n b + n) ns

/-- Clearing the bits of `m` subtracts them. -/
theorem and_not_eq_sub (x m : BitVec w) : x &&& ~~~m = x - (x &&& m) := by
  have hdisjoint : (x &&& ~~~m) &&& (x &&& m) = 0 := by
    ext i hi
    by_cases h : m[i] = true <;> simp [h]
  have hsum : (x &&& ~~~m) + (x &&& m) = x := by
    rw [BitVec.add_eq_or_of_and_eq_zero _ _ hdisjoint]
    ext i hi
    by_cases h : m[i] = true <;> simp [h]
  exact eq_sub_of_add_eq hsum

theorem toNat_clear_low {k : ℕ} (hk : k < w) (x : BitVec w) :
    (x &&& ~~~(BitVec.twoPow w k - 1)).toNat = x.toNat / 2 ^ k * 2 ^ k := by
  have hone : (1 : BitVec w).toNat = 1 := by
    rw [BitVec.ofNat_eq_ofNat,BitVec.toNat_ofNat]
    exact Nat.mod_eq_of_lt (Nat.one_lt_two_pow (by omega))
  have hlow : (BitVec.twoPow w k - 1).toNat = 2 ^ k - 1 := by
    have hle : (1 : BitVec w) ≤ BitVec.twoPow w k := by
      rw [BitVec.le_def,hone,BitVec.toNat_twoPow_of_lt hk]
      exact Nat.one_le_two_pow
    rw [BitVec.toNat_sub_of_le hle,BitVec.toNat_twoPow_of_lt hk,hone]
  have hand : (x &&& (BitVec.twoPow w k - 1)).toNat = x.toNat % 2 ^ k := by
    rw [BitVec.toNat_and,hlow,Nat.and_two_pow_sub_one_eq_mod]
  have hle : x &&& (BitVec.twoPow w k - 1) ≤ x := by
    rw [BitVec.le_def,hand]
    exact Nat.mod_le ..
  have hdiv := Nat.div_add_mod x.toNat (2 ^ k)
  rw [Nat.mul_comm] at hdiv
  rw [and_not_eq_sub,BitVec.toNat_sub_of_le hle,hand]
  omega

/-- Aligning to a power of two is the alignment of the numbers, in the words. -/
theorem alignWord_ofNat {k : ℕ} (hk : k < w) (b : ℕ) :
    alignWord (BitVec.twoPow w k) (BitVec.ofNat w b) = BitVec.ofNat w (alignUp (2 ^ k) b) := by
  have hlow : BitVec.twoPow w k - 1 = BitVec.ofNat w (2 ^ k - 1) := by
    have hpow : BitVec.twoPow w k = BitVec.ofNat w (2 ^ k - 1) + 1 := by
      apply BitVec.eq_of_toNat_eq
      rw [BitVec.ofNat_eq_ofNat,← BitVec.ofNat_add,Nat.sub_add_cancel Nat.one_le_two_pow,BitVec.toNat_ofNat,
        BitVec.toNat_twoPow]
    rw [hpow,add_sub_cancel_right]
  have hword : (2 : ℕ) ^ w = 2 ^ k * 2 ^ (w - k) := by
    rw [← Nat.pow_add,Nat.add_sub_cancel' (Nat.le_of_lt hk)]
  apply BitVec.eq_of_toNat_eq
  rw [alignWord,toNat_clear_low hk,hlow,← BitVec.ofNat_add,BitVec.toNat_ofNat,BitVec.toNat_ofNat,alignUp,hword,
    Nat.mod_mul_right_div_self,Nat.mul_comm (2 ^ k),Nat.mul_mod_mul_right]

theorem alignWord_allOnes_le (b : BitVec w) : (alignWord (BitVec.allOnes w) b).toNat ≤ 1 := by
  have hone : ~~~(BitVec.allOnes w - 1) = (1 : BitVec w) := by
    rw [BitVec.not_eq_neg_add,← BitVec.neg_one_eq_allOnes,BitVec.ofNat_eq_ofNat]
    abel
  rw [alignWord,hone,BitVec.toNat_and]
  exact Nat.and_le_right.trans (by rw [BitVec.ofNat_eq_ofNat,BitVec.toNat_ofNat]; exact Nat.mod_le ..)

/-- A power of two, or all ones for every larger size. -/
def Size (n : BitVec w) : Prop := (∃ k < w, n = BitVec.twoPow w k) ∨ n = BitVec.allOnes w

theorem Size.toNat_pos (hw : 0 < w) {n : BitVec w} (h : Size n) : 0 < n.toNat := by
  rcases h with ⟨k,hk,rfl⟩ | rfl
  · rw [BitVec.toNat_twoPow_of_lt hk]
    exact Nat.two_pow_pos k
  · rw [BitVec.toNat_allOnes]
    have hpow := Nat.one_lt_two_pow (Nat.ne_of_gt hw)
    omega

theorem Size.map_pos (hw : 0 < w) {ns : List (BitVec w)} (hns : ∀ n ∈ ns, Size n) :
    ∀ n ∈ ns.map BitVec.toNat, 0 < n := by
  intro n hn
  obtain ⟨m,hm,rfl⟩ := List.mem_map.mp hn
  exact (hns m hm).toNat_pos hw

theorem ofNat_add_twoPow (a k : ℕ) : BitVec.ofNat w a + BitVec.twoPow w k = BitVec.ofNat w (a + 2 ^ k) := by
  rw [BitVec.ofNat_add]
  congr 1
  exact BitVec.eq_of_toNat_eq (by rw [BitVec.toNat_twoPow,BitVec.toNat_ofNat])

/-- The next span of a power of two starts at the end of the words, or it fits. -/
theorem alignUp_two_pow {k b : ℕ} (hk : k < w) (hb : b ≤ 2 ^ w) :
    alignUp (2 ^ k) b = 2 ^ w ∨ alignUp (2 ^ k) b + 2 ^ k ≤ 2 ^ w := by
  have hdvd : 2 ^ k ∣ 2 ^ w := Nat.pow_dvd_pow 2 (Nat.le_of_lt hk)
  have hle := alignUp_le (Nat.two_pow_pos k) hdvd hb
  rcases Nat.eq_or_lt_of_le hle with heq | hlt
  · exact .inl heq
  · exact .inr (add_le_of_dvd (dvd_alignUp _ _) hdvd hlt)

/-- The spans of the words lie behind the base and within the words, if and only if the spans
of the numbers end within them. -/
theorem wordSpans_fit_iff (hw : 0 < w) {base b : ℕ} {ns : List (BitVec w)} (hns : ∀ n ∈ ns, Size n)
    (hbase : 1 < base) (hb : base ≤ b) (hb' : b ≤ 2 ^ w) :
    (∀ p ∈ wordSpans (BitVec.ofNat w b) ns, base ≤ p.1.toNat ∧ p.1.toNat + p.2.toNat ≤ 2 ^ w) ↔
      finish b (ns.map BitVec.toNat) ≤ 2 ^ w := by
  induction ns generalizing b with
  | nil => simpa [wordSpans,finish] using hb'
  | cons n ns ih =>
    have hns' : ∀ n ∈ ns, Size n := fun n hn => hns n (List.mem_cons_of_mem _ hn)
    rw [wordSpans,List.forall_mem_cons,List.map_cons,finish]
    rcases hns n (List.mem_cons_self ..) with ⟨k,hk,rfl⟩ | rfl
    · have hle := le_alignUp (Nat.two_pow_pos k) b
      rw [alignWord_ofNat hk,BitVec.toNat_twoPow_of_lt hk]
      rcases alignUp_two_pow hk hb' with hend | hfit
      · have hlast := le_finish (Size.map_pos hw hns') (alignUp (2 ^ k) b + 2 ^ k)
        have htwo := Nat.two_pow_pos k
        rw [hend] at hlast ⊢
        rw [BitVec.toNat_ofNat,Nat.mod_self]
        refine iff_of_false (fun h => ?_) ?_ <;> omega
      · have hlt : alignUp (2 ^ k) b < 2 ^ w := Nat.lt_of_lt_of_le (Nat.lt_add_of_pos_right (Nat.two_pow_pos k)) hfit
        rw [ofNat_add_twoPow,BitVec.toNat_ofNat,Nat.mod_eq_of_lt hlt,ih hns' (Nat.le_add_right_of_le (hb.trans hle)) hfit,and_iff_right ⟨hb.trans hle,hfit⟩]
    · have haddr := alignWord_allOnes_le (BitVec.ofNat w b)
      have hle := le_alignUp ((Size.toNat_pos hw (.inr rfl) : 0 < (BitVec.allOnes w).toNat)) b
      have hlast := le_finish (Size.map_pos hw hns') (alignUp (BitVec.allOnes w).toNat b + (BitVec.allOnes w).toNat)
      have htop := BitVec.toNat_allOnes (v := w)
      have htwo := Nat.two_pow_pos w
      refine iff_of_false (fun h => ?_) ?_
      · have hbase' := h.1.1.trans haddr
        omega
      · omega

/-- Spans that end within the words are those of the numbers. -/
theorem wordSpans_eq (hw : 0 < w) {b : ℕ} {ns : List (BitVec w)} (hns : ∀ n ∈ ns, Size n) (hb : 1 < b)
    (hend : finish b (ns.map BitVec.toNat) ≤ 2 ^ w) :
    (wordSpans (BitVec.ofNat w b) ns).map (fun p => (p.1.toNat,p.2.toNat)) = spans b (ns.map BitVec.toNat) := by
  induction ns generalizing b with
  | nil => rfl
  | cons n ns ih =>
    have hns' : ∀ n ∈ ns, Size n := fun n hn => hns n (List.mem_cons_of_mem _ hn)
    rw [List.map_cons,finish] at hend
    have hlast := le_finish (Size.map_pos hw hns') (alignUp n.toNat b + n.toNat)
    have hle := le_alignUp ((hns n (List.mem_cons_self ..)).toNat_pos hw) b
    rcases hns n (List.mem_cons_self ..) with ⟨k,hk,rfl⟩ | rfl
    · rw [BitVec.toNat_twoPow_of_lt hk] at hlast hle hend
      have htwo := Nat.two_pow_pos k
      rw [wordSpans,List.map_cons,List.map_cons,spans,alignWord_ofNat hk,ofNat_add_twoPow,BitVec.toNat_twoPow_of_lt hk,
        BitVec.toNat_ofNat,Nat.mod_eq_of_lt (by omega),ih hns' (by omega) hend]
    · have htop := BitVec.toNat_allOnes (v := w)
      omega

end Words

end EmbedTemplate.BumpAllocator
