import Mathlib.Data.Nat.ModEq
import Mathlib.Logic.Function.Basic
import Mathlib.Tactic.Linarith

/-! # Byte strings in linear and circular memory

A memory is a function from addresses. `put` and `get` work on consecutive
addresses, `store` and `Holds` on consecutive positions of a circular buffer whose
address is the position modulo the capacity. Positions are never reduced, so a
window of at most one capacity is addressed injectively and stores outside a
window cannot be seen through it.
-/
namespace EmbedTemplate.Circular
variable {β : Type*}

/-- Consecutive stores starting at address `a`. -/
def put (m : ℕ → β) (a : ℕ) : List β → ℕ → β
  | [] => m
  | b :: bs => put (Function.update m a b) (a + 1) bs

/-- Consecutive loads starting at address `a`. -/
def get (m : ℕ → β) (a : ℕ) : ℕ → List β
  | 0 => []
  | k + 1 => m a :: get m (a + 1) k

/-- Consecutive stores starting at position `p` of a circular buffer. -/
def store (n : ℕ) (m : ℕ → β) (p : ℕ) : List β → ℕ → β
  | [] => m
  | b :: bs => store n (Function.update m (p % n) b) (p + 1) bs

/-- The string `bs` lies in the circular buffer from position `p` on. -/
def Holds (n : ℕ) (m : ℕ → β) (p : ℕ) (bs : List β) : Prop :=
  ∀ i b, bs[i]? = some b → m ((p + i) % n) = b

@[simp] theorem put_nil (m : ℕ → β) (a : ℕ) : put m a [] = m := rfl
@[simp] theorem store_nil (n : ℕ) (m : ℕ → β) (p : ℕ) : store n m p [] = m := rfl
@[simp] theorem get_length (m : ℕ → β) (a k : ℕ) : (get m a k).length = k := by
  induction k generalizing a with
  | zero => rfl
  | succ k ih => simp [get,ih]

theorem put_append (m : ℕ → β) (a : ℕ) (xs ys : List β) :
    put m a (xs ++ ys) = put (put m a xs) (a + xs.length) ys := by
  induction xs generalizing m a with
  | nil => rfl
  | cons x xs ih => simp [put,ih,Nat.add_comm,Nat.add_left_comm]

theorem get_add (m : ℕ → β) (a j k : ℕ) : get m a (j + k) = get m a j ++ get m (a + j) k := by
  induction j generalizing a with
  | zero => simp [get]
  | succ j ih => rw [Nat.succ_add,get,ih,get,List.cons_append,Nat.succ_add_eq_add_succ]

theorem get_eq_map (m : ℕ → β) (a k : ℕ) : get m a k = (List.range k).map fun i => m (a + i) := by
  induction k with
  | zero => rfl
  | succ k ih => rw [get_add,ih,List.range_succ,List.map_append]; rfl

theorem get_getElem? (m : ℕ → β) (a k i : ℕ) :
    (get m a k)[i]? = if i < k then some (m (a + i)) else none := by
  induction k generalizing a i with
  | zero => simp [get]
  | succ k ih =>
    cases i with
    | zero => simp [get]
    | succ i => simp [get,ih,Nat.add_comm,Nat.add_left_comm]

theorem get_congr {m m' : ℕ → β} {a k : ℕ} (h : ∀ x, a ≤ x → m' x = m x) :
    Circular.get m' a k = Circular.get m a k := by
  induction k generalizing a with
  | zero => rfl
  | succ k ih => rw [get,get,h a le_rfl,ih fun x hx => h x (by omega)]

theorem store_append (n : ℕ) (m : ℕ → β) (p : ℕ) (xs ys : List β) :
    store n m p (xs ++ ys) = store n (store n m p xs) (p + xs.length) ys := by
  induction xs generalizing m p with
  | nil => rfl
  | cons x xs ih => simp [store,ih,Nat.add_comm,Nat.add_left_comm]

/-- Stores reach only the addresses of their own positions. -/
theorem store_outside (n : ℕ) (m : ℕ → β) (p : ℕ) (bs : List β) {x : ℕ}
    (h : ∀ i < bs.length, (p + i) % n ≠ x) : store n m p bs x = m x := by
  induction bs generalizing m p with
  | nil => rfl
  | cons b bs ih =>
    rw [store,ih]
    · have h0 := h 0 (by simp)
      exact Function.update_of_ne (Ne.symm (by simpa using h0)) b m
    · intro i hi
      have hs := h (i + 1) (by simpa using hi)
      rwa [Nat.add_assoc,Nat.add_comm 1 i]

theorem store_shift {n : ℕ} (m : ℕ → β) {p q : ℕ} (bs : List β) (hpq : p ≡ q [MOD n]) :
    store n m p bs = store n m q bs := by
  induction bs generalizing m p q with
  | nil => rfl
  | cons b bs ih => rw [store,store,(hpq : p % n = q % n),ih _ (hpq.add_right 1)]

/-- Two positions of one window of `n` positions have different addresses. -/
theorem position_inj {n p i j : ℕ} (hi : i < n) (hj : j < n)
    (h : (p + i) % n = (p + j) % n) : i = j := by
  have hm : i ≡ j [MOD n] := Nat.ModEq.add_left_cancel' p h
  rwa [Nat.ModEq,Nat.mod_eq_of_lt hi,Nat.mod_eq_of_lt hj] at hm

theorem store_inside (n : ℕ) (m : ℕ → β) (p : ℕ) (bs : List β) (hn : bs.length ≤ n)
    {i : ℕ} {b : β} (h : bs[i]? = some b) : store n m p bs ((p + i) % n) = b := by
  induction bs generalizing m p i with
  | nil => simp at h
  | cons x bs ih =>
    rw [List.length_cons] at hn
    cases i with
    | zero =>
      obtain rfl : x = b := by simpa using h
      rw [store,store_outside n _ (p + 1) bs]
      · simp
      · intro i hi he
        have hij := position_inj (n := n) (p := p) (i := 1 + i) (j := 0) (by omega) (by omega)
          (by simpa [Nat.add_assoc] using he)
        omega
    | succ i =>
      have hs := ih (Function.update m (p % n) x) (p + 1) (by omega) (by simpa using h)
      rwa [Nat.add_assoc,Nat.add_comm 1 i] at hs

theorem holds_store (n : ℕ) (m : ℕ → β) (p : ℕ) (bs : List β) (hn : bs.length ≤ n) :
    Holds n (store n m p bs) p bs := fun _ _ h => store_inside n m p bs hn h

/-- Two buffers are equal when they agree on a window and on all other addresses. -/
theorem eq_of_window {n : ℕ} {m m' : ℕ → β} (p k : ℕ)
    (hin : ∀ i < k, m ((p + i) % n) = m' ((p + i) % n))
    (hout : ∀ x, (∀ i < k, (p + i) % n ≠ x) → m x = m' x) : m = m' := by
  funext x
  by_cases h : ∃ i < k, (p + i) % n = x
  · obtain ⟨i,hi,rfl⟩ := h
    exact hin i hi
  · exact hout x fun i hi he => h ⟨i,hi,he⟩

/-- A later store over the end of a string replaces that end. -/
theorem store_over {n : ℕ} (m : ℕ → β) (p : ℕ) (xs ys zs : List β) (hlen : ys.length = zs.length)
    (hn : xs.length + zs.length ≤ n) :
    store n (store n m p (xs ++ ys)) (p + xs.length) zs = store n m p (xs ++ zs) := by
  rw [store_append,store_append]
  apply eq_of_window (n := n) (p + xs.length) zs.length
  · intro i hi
    rw [store_inside n _ _ zs (by omega) (List.getElem?_eq_getElem hi),
      store_inside n _ _ zs (by omega) (List.getElem?_eq_getElem hi)]
  · intro x hx
    rw [store_outside n _ _ zs hx,store_outside n _ _ zs hx,store_outside n _ _ ys (by rwa [hlen])]

/-- A later store at the start of a string replaces its first byte. -/
theorem store_head {n : ℕ} (m : ℕ → β) (p : ℕ) (b c : β) (bs : List β) (hn : bs.length < n) :
    store n (store n m p (b :: bs)) p [c] = store n m p (c :: bs) := by
  apply eq_of_window (n := n) p (bs.length + 1)
  · intro i hi
    cases i with
    | zero =>
      rw [store_inside n m p (c :: bs) (by rw [List.length_cons]; omega) (by rfl),
        store_inside n _ p [c] (by rw [List.length_singleton]; omega) (by rfl)]
    | succ i =>
      have hi' : i < bs.length := by omega
      rw [store_inside n m p (c :: bs) (by rw [List.length_cons]; omega) (i := i + 1) (List.getElem?_eq_getElem hi'),
        store_outside n _ p [c],
        store_inside n m p (b :: bs) (by rw [List.length_cons]; omega) (i := i + 1) (List.getElem?_eq_getElem hi')]
      intro j hj he
      rw [List.length_singleton] at hj
      have hij := position_inj (n := n) (p := p) (i := j) (j := i + 1) (by omega) (by omega) he
      omega
  · intro x hx
    rw [store_outside n _ p [c] (fun i hi => hx i (by rw [List.length_singleton] at hi; omega)),
      store_outside n m p _ (by simpa using hx),store_outside n m p _ (by simpa using hx)]

/-- A position of a window is not reached by stores behind the window. -/
theorem store_ahead {n : ℕ} (m : ℕ → β) {p q i : ℕ} (bs : List β) (hq : p + i < q)
    (hn : q + bs.length ≤ p + n) : store n m q bs ((p + i) % n) = m ((p + i) % n) := by
  apply store_outside
  intro j hj he
  have hij := position_inj (n := n) (p := p) (i := (q - p) + j) (j := i) (by omega) (by omega)
    (by rw [← he]; congr 1; omega)
  omega

/-- A window is untouched by stores that stay within one capacity of its start. -/
theorem Holds.store_after {n : ℕ} {m : ℕ → β} {p q : ℕ} {as bs : List β} (h : Holds n m p as)
    (hq : p + as.length ≤ q) (hn : q + bs.length ≤ p + n) : Holds n (store n m q bs) p as := by
  intro i b hi
  have hlt : i < as.length := (List.getElem?_eq_some_iff.mp hi).1
  rw [store_ahead m bs (by omega) hn]
  exact h i b hi

/-- A position of a window is not reached by stores in front of the window. -/
theorem store_behind {n : ℕ} (m : ℕ → β) {p q i : ℕ} (bs : List β) (hq : q + bs.length ≤ p + i) (hn : p + i < q + n) :
    store n m q bs ((p + i) % n) = m ((p + i) % n) := by
  apply store_outside
  intro j hj he
  have hij := position_inj (n := n) (p := q) (i := j) (j := p + i - q) (by omega) (by omega)
    (by rw [he]; congr 1; omega)
  omega

/-- A window is untouched by stores in front of it, from one capacity before its end on. -/
theorem Holds.store_before {n : ℕ} {m : ℕ → β} {p q : ℕ} {as bs : List β} (h : Holds n m p as)
    (hq : q + bs.length ≤ p) (hn : p + as.length ≤ q + n) : Holds n (store n m q bs) p as := by
  intro i b hi
  have hlt : i < as.length := (List.getElem?_eq_some_iff.mp hi).1
  rw [store_behind m bs (by omega) (by omega)]
  exact h i b hi

@[simp] theorem holds_nil (n : ℕ) (m : ℕ → β) (p : ℕ) : Holds n m p [] := by
  intro i b h
  simp at h

theorem holds_append {n : ℕ} {m : ℕ → β} {p : ℕ} {xs ys : List β} :
    Holds n m p (xs ++ ys) ↔ Holds n m p xs ∧ Holds n m (p + xs.length) ys := by
  constructor
  · intro h
    refine ⟨fun i b hi => h i b ?_,fun i b hi => ?_⟩
    · rw [List.getElem?_append_left (List.getElem?_eq_some_iff.mp hi).1]
      exact hi
    · rw [Nat.add_assoc]
      refine h (xs.length + i) b ?_
      rw [List.getElem?_append_right (by omega)]
      simpa using hi
  · rintro ⟨hx,hy⟩ i b hi
    by_cases hlt : i < xs.length
    · exact hx i b (by rwa [List.getElem?_append_left hlt] at hi)
    · rw [List.getElem?_append_right (by omega)] at hi
      have hb := hy (i - xs.length) b hi
      rwa [Nat.add_assoc,Nat.add_sub_cancel' (by omega)] at hb

theorem holds_singleton {n : ℕ} {m : ℕ → β} {p : ℕ} {b : β} : Holds n m p [b] ↔ m (p % n) = b := by
  constructor
  · intro h
    exact h 0 b rfl
  · intro h i c hi
    obtain ⟨hlt,hc⟩ := List.getElem?_eq_some_iff.mp hi
    have hzero : i = 0 := by simpa using hlt
    subst hzero
    exact h.trans hc

theorem Holds.congr {n : ℕ} {m m' : ℕ → β} {p : ℕ} {bs : List β} (h : Holds n m p bs)
    (he : ∀ i < bs.length, m' ((p + i) % n) = m ((p + i) % n)) : Holds n m' p bs := by
  intro i b hi
  rw [he i (List.getElem?_eq_some_iff.mp hi).1]
  exact h i b hi

theorem Holds.head {n : ℕ} {m : ℕ → β} {p : ℕ} {b : β} {bs : List β} (h : Holds n m p (b :: bs)) :
    m (p % n) = b := h 0 b rfl

/-- Positions that agree modulo a multiple of the capacity name the same window. -/
theorem Holds.shift {n : ℕ} {m : ℕ → β} {p q : ℕ} {bs : List β} (h : Holds n m p bs)
    (hpq : q ≡ p [MOD n]) : Holds n m q bs := by
  intro i b hi
  rw [(hpq.add_right i : (q + i) % n = (p + i) % n)]
  exact h i b hi

/-- Loads that stay below the physical end read the window itself. -/
theorem Holds.get_linear {n : ℕ} {m : ℕ → β} {p : ℕ} {bs : List β} (h : Holds n m p bs)
    (hend : p % n + bs.length ≤ n) : get m (p % n) bs.length = bs := by
  apply List.ext_getElem?
  intro i
  rw [get_getElem?]
  by_cases hi : i < bs.length
  · have hb := h i bs[i] (List.getElem?_eq_getElem hi)
    rw [if_pos hi,List.getElem?_eq_getElem hi,← hb,Nat.add_mod,
      Nat.mod_eq_of_lt (by omega : i < n),Nat.mod_eq_of_lt (by omega : p % n + i < n)]
  · rw [if_neg hi,List.getElem?_eq_none (by omega)]

theorem holds_of_get {n : ℕ} {m : ℕ → β} {p : ℕ} {bs : List β} (h : get m p bs.length = bs)
    (hend : p + bs.length ≤ n) : Holds n m p bs := by
  intro i b hi
  have hlt := (List.getElem?_eq_some_iff.mp hi).1
  rw [← h,get_getElem?,if_pos hlt] at hi
  rw [Nat.mod_eq_of_lt (by omega)]
  exact Option.some.inj hi

/-- Consecutive stores below the physical end are stores at positions. -/
theorem put_eq_store (n : ℕ) (m : ℕ → β) (p : ℕ) (bs : List β) (hend : p % n + bs.length ≤ n) :
    put m (p % n) bs = store n m p bs := by
  induction bs generalizing m p with
  | nil => rfl
  | cons b bs ih =>
    cases bs with
    | nil => rfl
    | cons c bs =>
      have hlt : p % n + 1 < n := by simp at hend; omega
      have hs : (p + 1) % n = p % n + 1 := by
        rw [Nat.add_mod,Nat.mod_eq_of_lt (by omega : 1 < n),Nat.mod_eq_of_lt hlt]
      have h := ih (Function.update m (p % n) b) (p + 1) (by rw [hs]; simp at hend ⊢; omega)
      rw [hs] at h
      exact h

theorem position_end {n : ℕ} (hn : 0 < n) (p : ℕ) : (p + (n - p % n)) % n = 0 := by
  have hp := Nat.mod_lt p hn
  have hd : p + (n - p % n) = n * (p / n + 1) := by
    rw [Nat.mul_add]
    have := Nat.div_add_mod p n
    omega
  rw [hd,Nat.mul_mod_right]

/-- Loads split at the physical end read a window that wraps. -/
theorem Holds.get_wrapped {n : ℕ} {m : ℕ → β} {p : ℕ} {bs : List β} (h : Holds n m p bs)
    (hn : bs.length ≤ n) (hend : n - p % n < bs.length) :
    get m (p % n) (n - p % n) ++ get m 0 (bs.length - (n - p % n)) = bs := by
  have hpos : 0 < n := by omega
  have hlt := Nat.mod_lt p hpos
  obtain ⟨hl,hr⟩ := holds_append.mp (by rwa [List.take_append_drop (n - p % n) bs])
  have hle : (bs.take (n - p % n)).length = n - p % n := by rw [List.length_take]; omega
  have h0 := position_end hpos p
  have h1 := hl.get_linear (by omega)
  have h2 := hr.get_linear (by rw [hle,h0,List.length_drop]; omega)
  rw [hle] at h1 h2
  rw [h0,List.length_drop] at h2
  rw [h1,h2,List.take_append_drop]

theorem put_outside (m : ℕ → β) (a : ℕ) (bs : List β) {x : ℕ} (h : x < a ∨ a + bs.length ≤ x) :
    put m a bs x = m x := by
  induction bs generalizing m a with
  | nil => rfl
  | cons b bs ih =>
    rw [List.length_cons] at h
    rw [put,ih _ _ (by omega)]
    exact Function.update_of_ne (show x ≠ a by omega) b m

theorem put_update {m : ℕ → β} {x : ℕ} (b : β) {a : ℕ} (h : x < a) (bs : List β) :
    put (Function.update m x b) a bs = Function.update (put m a bs) x b := by
  induction bs generalizing m a with
  | nil => rfl
  | cons c bs ih =>
    rw [put,Function.update_comm (Nat.ne_of_lt h),ih (Nat.lt_succ_of_lt h)]
    rfl

theorem get_put (m : ℕ → β) (a : ℕ) (bs : List β) : get (put m a bs) a bs.length = bs := by
  induction bs generalizing m a with
  | nil => rfl
  | cons b bs ih =>
    rw [List.length_cons,get,put,ih,put_outside _ _ _ (.inl (Nat.lt_succ_self a)),Function.update_self]

theorem get_put_left (m : ℕ → β) (a : ℕ) (xs ys : List β) :
    get (put m a (xs ++ ys)) a xs.length = xs := by
  have h := get_put m a (xs ++ ys)
  rw [List.length_append,get_add] at h
  exact List.append_inj_left h (get_length _ _ _)

theorem get_put_right (m : ℕ → β) (a : ℕ) (xs ys : List β) :
    get (put m a (xs ++ ys)) (a + xs.length) ys.length = ys := by
  rw [put_append,get_put]

theorem get_window {m m' : ℕ → β} {a k : ℕ} (h : ∀ x, a ≤ x → x < a + k → m' x = m x) : get m' a k = get m a k := by
  rw [get_eq_map,get_eq_map]
  apply List.map_congr_left
  intro i hi
  exact h (a + i) (Nat.le_add_right a i) (Nat.add_lt_add_left (List.mem_range.mp hi) a)

/-- A string lies at `a` when its two parts lie one behind the other. -/
theorem get_append {m : ℕ → β} {a : ℕ} {xs ys : List β} : get m a (xs ++ ys).length = xs ++ ys ↔
    get m a xs.length = xs ∧ get m (a + xs.length) ys.length = ys := by
  rw [List.length_append,get_add]
  constructor
  · exact fun h => List.append_inj h (get_length ..)
  · rintro ⟨hx,hy⟩
    rw [hx,hy]

/-- Stores behind a string that lies at `a`. -/
theorem get_put_behind {m : ℕ → β} {a : ℕ} {xs : List β} (h : get m a xs.length = xs) (ys : List β) :
    get (put m (a + xs.length) ys) a (xs.length + ys.length) = xs ++ ys := by
  have hfront : get (put m (a + xs.length) ys) a xs.length = get m a xs.length := by
    rw [get_eq_map,get_eq_map]
    apply List.map_congr_left
    intro i hi
    have hlt := List.mem_range.mp hi
    exact put_outside m _ ys (.inl (Nat.add_lt_add_left hlt a))
  rw [get_add,hfront,h,get_put]

end EmbedTemplate.Circular
