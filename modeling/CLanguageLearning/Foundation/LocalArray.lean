import CLanguageLearning.Foundation.Exec
import Mathlib.Data.List.Induction

/-!
# Numbers written into an array

An array of bytes is the state of the code that fills it; an access outside the array has no
meaning. The decimal digits of a number are found from the last one on, so they are written in the
wrong order (`digitLoop`) and then turned around in place (`swapLoop`).
-/

set_option autoImplicit false

namespace CLanguageLearning.Foundation

namespace Array8

/-- `a[k]` -/
def load (k : Nat) : Exec (List UInt8) UInt8 := do
  let a ← get
  match a[k]? with
  | some c => return c
  | none => throw .undefined

/-- `a[k] = c` -/
def store (k : Nat) (c : UInt8) : Exec (List UInt8) Unit := do
  let a ← get
  if k < a.length then set (a.set k c) else throw .undefined

variable {pre post : List UInt8} {k : Nat}

theorem load_run (hk : pre.length = k) (c : UInt8) (post : List UInt8) :
    (load k).run (pre ++ c :: post) = .ok (c, pre ++ c :: post) := by
  subst hk
  simp [load]

theorem store_run (hk : pre.length = k) (c x : UInt8) (post : List UInt8) :
    (store k x).run (pre ++ c :: post) = .ok ((), pre ++ x :: post) := by
  subst hk
  simp [store]

/-- `a[k] = c; a[k + 1] = …` for the bytes of a list. -/
def storeAll : Nat → List UInt8 → Exec (List UInt8) Unit
  | _, [] => return ()
  | k, c :: l => do
      store k c
      storeAll (k + 1) l

theorem store_run_outside (hk : pre.length ≤ k) (c : UInt8) :
    (store k c).run pre = .error .undefined := by
  simp [store, Nat.not_lt.mpr hk]

theorem lt_of_store {a b : List UInt8} {c : UInt8} {u : Unit}
    (h : (store k c).run a = .ok (u, b)) : k < a.length := by
  by_contra hge
  rw [store_run_outside (not_lt.mp hge)] at h
  cases h

theorem store_keeps (k : Nat) (c : UInt8) : Keeps List.length (store k c) := by
  intro a u b h
  have hlt := lt_of_store h
  have hrun : (store k c).run a = .ok ((), a.set k c) := by simp [store, hlt]
  rw [hrun] at h
  cases h
  exact List.length_set

theorem storeAll_keeps (k : Nat) (l : List UInt8) : Keeps List.length (storeAll k l) := by
  induction l generalizing k with
  | nil => exact .pure ()
  | cons c l ih => exact .bind (store_keeps k c) fun _ => ih (k + 1)

/-- The bytes take the place of as many. -/
theorem storeAll_run (l : List UInt8) {junk : List UInt8} (hk : pre.length = k)
    (hlen : l.length = junk.length) (post : List UInt8) :
    (storeAll k l).run (pre ++ junk ++ post) = .ok ((), pre ++ l ++ post) := by
  induction l generalizing pre junk k with
  | nil =>
      rw [List.length_eq_zero_iff.mp hlen.symm]
      rfl
  | cons c l ih =>
      cases junk with
      | nil => cases hlen
      | cons d junk =>
          have hbehind : (pre ++ [c]).length = k + 1 := by simp [hk]
          have hrest := ih hbehind (Nat.succ.inj hlen)
          have hsplit : pre ++ d :: junk ++ post = pre ++ d :: (junk ++ post) := by simp
          have hnext : pre ++ c :: (junk ++ post) = pre ++ [c] ++ junk ++ post := by simp
          rw [storeAll, hsplit, run_bind_of_ok (store_run hk d c _), hnext, hrest]
          simp

end Array8

/-! ## Turning around -/

/-- `while (s < p) { aux = *s; *s = *p; *p = aux; s++; p--; }`, in at most the given number of
turns. -/
def swapLoop : Nat → Nat → Nat → Exec (List UInt8) Unit
  | 0, _, _ => throw .diverged
  | fuel + 1, s, p =>
      if s < p then do
        let aux ← Array8.load s
        let c ← Array8.load p
        Array8.store s c
        Array8.store p aux
        swapLoop fuel (s + 1) (p - 1)
      else return ()

/-- The bytes from `s` to `p` are reversed. -/
theorem swapLoop_run (seg : List UInt8) :
    ∀ (pre post : List UInt8) {fuel s p : Nat}, seg.length < fuel → pre.length = s →
      s + seg.length - 1 = p →
      (swapLoop fuel s p).run (pre ++ (seg ++ post)) = .ok ((), pre ++ (seg.reverse ++ post)) := by
  induction seg using List.bidirectionalRec with
  | nil =>
      intro pre post fuel s p hfuel _ hp
      obtain ⟨fuel, rfl⟩ := Nat.exists_eq_add_one.mpr hfuel
      rw [List.length_nil] at hp
      rw [swapLoop, if_neg (by omega)]
      rfl
  | singleton a =>
      intro pre post fuel s p hfuel _ hp
      obtain ⟨fuel, rfl⟩ := Nat.exists_eq_add_one.mpr (Nat.zero_lt_of_lt hfuel)
      rw [List.length_singleton] at hp
      rw [swapLoop, if_neg (by omega)]
      rfl
  | cons_append a l b ih =>
      intro pre post fuel s p hfuel hs hp
      obtain ⟨fuel, rfl⟩ := Nat.exists_eq_add_one.mpr (Nat.zero_lt_of_lt hfuel)
      simp only [List.length_cons, List.length_append, List.length_nil] at hfuel hp
      have hlen : (pre ++ a :: l).length = p := by
        rw [List.length_append, List.length_cons]
        omega
      have hlen' : (pre ++ b :: l).length = p := by
        rw [List.length_append, List.length_cons] at hlen ⊢
        exact hlen
      -- the two ends, seen from the left and from the right
      have hfirst : pre ++ (a :: (l ++ [b]) ++ post) = pre ++ a :: (l ++ b :: post) := by simp
      have hmid : pre ++ b :: (l ++ b :: post) = pre ++ b :: l ++ b :: post := by simp
      have hlast : pre ++ a :: (l ++ b :: post) = pre ++ a :: l ++ b :: post := by simp
      have hload := Array8.load_run hlen b post
      rw [← hlast] at hload
      have hstore := Array8.store_run hlen' b a post
      rw [← hmid] at hstore
      have hturns : l.length < fuel := by omega
      have hnext : (pre ++ [b]).length = s + 1 := by simp [hs]
      have hend : s + 1 + l.length - 1 = p - 1 := by omega
      have hrest := ih (pre ++ [b]) (a :: post) hturns hnext hend
      rw [swapLoop, if_pos (by omega), hfirst, run_bind_of_ok (Array8.load_run hs a _),
        run_bind_of_ok hload, run_bind_of_ok (Array8.store_run hs a b _), run_bind_of_ok hstore]
      simpa using hrest

/-! ## Decimal digits -/

/-- A number in decimal. -/
def decimal (n : Nat) : List UInt8 := (Nat.toDigits 10 n).map Char.toUInt8

/-- An integer in decimal, with a sign if it is negative. -/
def decimalInt (x : Int) : List UInt8 :=
  if x < 0 then 45 :: decimal x.natAbs else decimal x.natAbs

/-- `do { *p++ = '0' + v % 10; v /= 10; } while (v);`, in at most the given number of turns. -/
def digitLoop : Nat → Nat → UInt64 → Exec (List UInt8) Nat
  | 0, _, _ => throw .diverged
  | fuel + 1, p, v => do
      Array8.store p (48 + v % 10).toUInt8
      if v / 10 ≠ 0 then digitLoop fuel (p + 1) (v / 10) else return p + 1

theorem decimal_ne_nil (n : Nat) : decimal n ≠ [] := by
  simp [decimal, Nat.toDigits_ne_nil]

theorem toUInt8_digitChar : ∀ d, d < 10 → (Nat.digitChar d).toUInt8 = UInt8.ofNat (48 + d) := by
  decide

/-- The last digit, and the others in front of it. -/
theorem decimal_eq (n : Nat) :
    decimal n = (if n < 10 then [] else decimal (n / 10)) ++ [UInt8.ofNat (48 + n % 10)] := by
  rw [← toUInt8_digitChar (n % 10) (Nat.mod_lt n (by decide)), decimal,
    Nat.toDigits_eq_if (by decide)]
  split
  next h => rw [Nat.mod_eq_of_lt h]; rfl
  next => rw [List.map_append]; rfl

theorem length_decimal_le {n k : Nat} (hk : 0 < k) (h : n < 10 ^ k) : (decimal n).length ≤ k := by
  rw [decimal, List.length_map]
  exact (Nat.length_toDigits_le_iff (by decide) hk).mpr h

theorem length_decimalInt_le {x : Int} {k : Nat} (hk : 0 < k) (h : x.natAbs < 10 ^ k) :
    (decimalInt x).length ≤ k + 1 := by
  have hdigits := length_decimal_le hk h
  rw [decimalInt]
  split
  · exact Nat.succ_le_succ hdigits
  · exact hdigits.trans (Nat.le_succ k)

/-- The byte that the loop computes. -/
theorem digit_eq (v : UInt64) : (48 + v % 10).toUInt8 = UInt8.ofNat (48 + v.toNat % 10) := by
  apply UInt8.toNat_inj.mp
  have hmod : (v % 10).toNat = v.toNat % 10 := by simp
  rw [UInt64.toNat_toUInt8, UInt64.toNat_add, hmod, UInt8.toNat_ofNat']
  simp

/-- The digits of `v` are in the array, the last one first. -/
theorem digitLoop_run (fuel : Nat) :
    ∀ (pre junk : List UInt8) {p : Nat} {v : UInt64}, pre.length = p →
      (decimal v.toNat).length ≤ fuel → (decimal v.toNat).length ≤ junk.length →
      (digitLoop fuel p v).run (pre ++ junk) = .ok (p + (decimal v.toNat).length,
        pre ++ ((decimal v.toNat).reverse ++ junk.drop (decimal v.toNat).length)) := by
  induction fuel with
  | zero =>
      intro pre junk p v _ hfuel
      exact absurd (List.length_eq_zero_iff.mp (Nat.le_zero.mp hfuel)) (decimal_ne_nil _)
  | succ fuel ih =>
      intro pre junk p v hp hfuel hjunk
      rw [decimal_eq, List.length_append, List.length_singleton] at hfuel hjunk
      obtain ⟨c, junk, rfl⟩ := List.exists_cons_of_length_pos (Nat.zero_lt_of_lt hjunk)
      rw [List.length_cons] at hjunk
      rw [digitLoop, run_bind_of_ok (Array8.store_run hp c _ junk), digit_eq, decimal_eq v.toNat]
      have hdiv : (v / 10).toNat = v.toNat / 10 := by simp
      by_cases hlast : v.toNat < 10
      · have hzero : v / 10 = 0 := by
          apply UInt64.toNat_inj.mp
          rw [hdiv]
          exact Nat.div_eq_of_lt hlast
        rw [if_neg (not_not_intro hzero), if_pos hlast]
        simp
      · have hnext : v / 10 ≠ 0 := by
          intro hzero
          rw [hzero] at hdiv
          change 0 = _ at hdiv
          omega
        rw [if_neg hlast, ← hdiv] at hfuel hjunk ⊢
        have hpre : (pre ++ [UInt8.ofNat (48 + v.toNat % 10)]).length = p + 1 := by simp [hp]
        have hrest := ih _ junk (v := v / 10) hpre (by omega) (by omega)
        rw [if_pos hnext]
        simp only [List.append_assoc, List.singleton_append] at hrest
        rw [hrest]
        simp [Nat.add_assoc, Nat.add_comm 1]

end CLanguageLearning.Foundation
