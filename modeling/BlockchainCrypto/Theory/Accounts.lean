import Mathlib.Data.List.AList
import Mathlib.Algebra.BigOperators.Finprod
import Mathlib.Algebra.BigOperators.Group.List.Basic
import Mathlib.Tactic.Ring

/-!
# Accounts and postings

A book maps finitely many accounts to integer balances; an account that is not listed has balance
zero. Posting an amount to an account opens it when needed. After any sequence of postings the
balance of an account is its opening balance plus the amounts posted to it, and the total of the
book is the opening total plus all amounts, so postings that cancel out leave the total alone.

## Main definitions

* `Accounts.Book`: a finite map from accounts to balances.
* `Accounts.Book.balance`, `Accounts.Book.total`: one account, and the sum over all accounts.
* `Accounts.Book.post`, `Accounts.Book.postAll`: one posting, and a sequence of postings.
* `Accounts.posted`: the amount that a sequence of postings brings to an account.
* `Accounts.Book.StaysIn`: no balance leaves a range while postings are made.

## Main results

* `Accounts.Book.balance_postAll`, `Accounts.Book.total_postAll`.
* `Accounts.Book.staysIn_append_iff`: a range, checked piece by piece.
* `Accounts.Book.finsum_balance`: the total is the sum over all accounts.
-/

namespace Accounts

variable {κ : Type*} [DecidableEq κ]

/-- A finite map from accounts to integer balances. -/
abbrev Book (κ : Type*) := AList fun _ : κ => ℤ

namespace Book

/-- The balance of an account, zero when it is not listed. -/
def balance (m : Book κ) (k : κ) : ℤ := (m.lookup k).getD 0

/-- The sum of all balances. -/
def total (m : Book κ) : ℤ := (m.entries.map Sigma.snd).sum

/-- Add an amount to an account, which is opened at zero when it is not listed. -/
def post (m : Book κ) (k : κ) (x : ℤ) : Book κ := m.insert k (m.balance k + x)

/-- Post a list of amounts in order. -/
def postAll (m : Book κ) (ps : List (κ × ℤ)) : Book κ := ps.foldl (fun m p => m.post p.1 p.2) m

end Book

/-- The amount that a list of postings brings to the account `k`. -/
def posted (ps : List (κ × ℤ)) (k : κ) : ℤ := (ps.map fun p => if p.1 = k then p.2 else 0).sum

@[simp] theorem posted_nil (k : κ) : posted [] k = 0 := rfl

@[simp] theorem posted_cons (p : κ × ℤ) (ps : List (κ × ℤ)) (k : κ) :
    posted (p :: ps) k = (if p.1 = k then p.2 else 0) + posted ps k := by
  simp [posted]

@[simp] theorem posted_append (ps qs : List (κ × ℤ)) (k : κ) :
    posted (ps ++ qs) k = posted ps k + posted qs k := by
  simp [posted]

namespace Book

@[simp] theorem balance_empty (k : κ) : (∅ : Book κ).balance k = 0 := rfl

omit [DecidableEq κ] in
@[simp] theorem total_empty : (∅ : Book κ).total = 0 := rfl

theorem balance_post (m : Book κ) (k k' : κ) (x : ℤ) :
    (m.post k x).balance k' = m.balance k' + if k = k' then x else 0 := by
  by_cases h : k = k'
  · subst h
    simp [post, balance]
  · simp [post, balance, AList.lookup_insert_ne (Ne.symm h), h]

/-- Taking an account out of the book takes its balance out of the total. -/
private theorem sum_kerase (k : κ) : (l : List (Sigma fun _ : κ => ℤ)) → l.NodupKeys →
    ((l.kerase k).map Sigma.snd).sum + (l.dlookup k).getD 0 = (l.map Sigma.snd).sum
  | [], _ => by simp
  | ⟨k', x⟩ :: l, h => by
    obtain ⟨hk', hl⟩ := List.nodupKeys_cons.mp h
    by_cases hk : k = k'
    · subst hk
      simp [add_comm]
    · have hlookup : (⟨k', x⟩ :: l : List (Sigma fun _ : κ => ℤ)).dlookup k = l.dlookup k :=
        List.dlookup_cons_ne l ⟨k', x⟩ hk
      rw [List.kerase_cons_ne hk, hlookup]
      simp only [List.map_cons, List.sum_cons, add_assoc, sum_kerase k l hl]

theorem total_post (m : Book κ) (k : κ) (x : ℤ) : (m.post k x).total = m.total + x := by
  have h := sum_kerase k m.entries m.nodupKeys
  have hb : m.balance k = (m.entries.dlookup k).getD 0 := rfl
  rw [post, total, AList.entries_insert, List.map_cons, List.sum_cons, hb, total, ← h]
  ring

/-- The balance of an account after a list of postings. -/
theorem balance_postAll (m : Book κ) (ps : List (κ × ℤ)) (k : κ) :
    (m.postAll ps).balance k = m.balance k + posted ps k := by
  induction ps generalizing m with
  | nil => simp [postAll]
  | cons p ps ih =>
    have hstep := ih (m.post p.1 p.2)
    rw [balance_post] at hstep
    simpa [postAll, add_assoc] using hstep

/-! ### Balances in a range -/

/-- Every balance is in `R` before, between and after the postings. -/
def StaysIn (m : Book κ) (R : Set ℤ) (ps : List (κ × ℤ)) : Prop :=
  ∀ qs, qs <+: ps → ∀ k, (m.postAll qs).balance k ∈ R

section StaysIn

variable {m : Book κ} {R : Set ℤ} {ps qs : List (κ × ℤ)}

theorem staysIn_nil_iff : m.StaysIn R [] ↔ ∀ k, m.balance k ∈ R := by
  simp [StaysIn, postAll]

theorem staysIn_cons_iff {p : κ × ℤ} :
    m.StaysIn R (p :: ps) ↔ (∀ k, m.balance k ∈ R) ∧ (m.post p.1 p.2).StaysIn R ps := by
  constructor
  · intro h
    exact ⟨h [] List.nil_prefix, fun qs hqs => h (p :: qs) ((List.prefix_cons_inj p).mpr hqs)⟩
  · rintro ⟨hm, h⟩ qs hqs
    rcases List.prefix_cons_iff.mp hqs with rfl | ⟨rest, rfl, hrest⟩
    · exact hm
    · exact h rest hrest

theorem staysIn_append_iff :
    m.StaysIn R (ps ++ qs) ↔ m.StaysIn R ps ∧ (m.postAll ps).StaysIn R qs := by
  induction ps generalizing m with
  | nil =>
    rw [List.nil_append, staysIn_nil_iff]
    exact ⟨fun h => ⟨h [] List.nil_prefix, h⟩, fun h => h.2⟩
  | cons p ps ih =>
    rw [List.cons_append, staysIn_cons_iff, ih, staysIn_cons_iff, and_assoc]
    rfl

theorem StaysIn.balance_mem (h : m.StaysIn R ps) (k : κ) : (m.postAll ps).balance k ∈ R :=
  h ps List.prefix_rfl k

/-- One posting moves one balance, so only that one may leave the range. -/
theorem forall_balance_post_iff (h : ∀ k, m.balance k ∈ R) {k : κ} {x : ℤ} :
    (∀ k', (m.post k x).balance k' ∈ R) ↔ m.balance k + x ∈ R := by
  simp only [balance_post]
  refine ⟨fun hpost => by simpa using hpost k, fun hk k' => ?_⟩
  split_ifs with heq
  · exact heq ▸ hk
  · rw [add_zero]
    exact h k'

end StaysIn

/-! ### Totals -/

/-- The total of the book after a list of postings. -/
theorem total_postAll (m : Book κ) (ps : List (κ × ℤ)) :
    (m.postAll ps).total = m.total + (ps.map Prod.snd).sum := by
  induction ps generalizing m with
  | nil => simp [postAll]
  | cons p ps ih =>
    have hstep := ih (m.post p.1 p.2)
    rw [total_post] at hstep
    simpa [postAll, add_assoc] using hstep

theorem balance_of_mem_entries {m : Book κ} {e : Sigma fun _ : κ => ℤ} (h : e ∈ m.entries) :
    m.balance e.1 = e.2 := by
  rw [balance, AList.mem_lookup_iff.mpr h, Option.getD_some]

/-- The total of the book is the sum of the balances of all accounts. -/
theorem finsum_balance (m : Book κ) : ∑ᶠ k, m.balance k = m.total := by
  have hsupport : Function.support m.balance ⊆ m.keys.toFinset := by
    intro k hk
    by_contra hmem
    have hlookup : m.lookup k = none :=
      AList.lookup_eq_none.mpr fun h => hmem (by simpa using AList.mem_keys.mp h)
    exact hk (by rw [balance, hlookup, Option.getD_none])
  rw [finsum_eq_sum_of_support_subset _ hsupport, List.sum_toFinset _ m.keys_nodup, total]
  have hkeys : m.keys = m.entries.map Sigma.fst := rfl
  rw [hkeys, List.map_map]
  exact congrArg List.sum (List.map_congr_left fun e he => balance_of_mem_entries he)

end Book

end Accounts
