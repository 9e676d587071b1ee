import BlockchainCrypto.Text.Extraction

/-!
# Delimited text

`std::getline` on a string stream removes the bytes up to the next delimiter from the stream and
stores them in its target. A stream that has reached its end stays there: a further `getline`
fails and leaves the target as it was, so a variable that is read into again keeps its old value.
Apart from that a stream is the list of its fields, and each `getline` takes the next one.

`std::stoi` and its relatives convert the numeral at the front of a string, after white space,
and ignore what follows it.

## Main definitions

* `ByteText.LineReader`: a computation that takes fields from a stream or throws.
* `ByteText.getline`, `ByteText.stoi`, `ByteText.stoll`, `ByteText.stoull`.
* `ByteText.fieldsOf`: the fields that are left in a stream.
* `ByteText.Takes`: the computation takes the given fields and returns the given value.
* `ByteText.Ensures`: what holds of every value the computation returns.

## Main results

* `ByteText.getline_eq`: `getline` takes the next field.
* `ByteText.Takes.bind`, `ByteText.Ensures.bind`: composition.
* `ByteText.stoi_decimalInt`, `ByteText.stoll_decimalInt`, `ByteText.stoull_decimal`: conversion
  of a rendered number.
-/

namespace ByteText

/-- A computation on a string stream. The state is what is left to read, `none` once the end of
the input has been reached; a computation without a result has thrown. -/
abbrev LineReader (α : Type) := StateT (Option Bytes) Option α

/-- `std::getline(stream, target, delim)`: the new value of the target. -/
def getline (delim : UInt8) (target : Bytes) : LineReader Bytes
  | none => some (target, none)
  | some s =>
    match s.dropWhile (· ≠ delim) with
    | [] => some (s, none)
    | _ :: rest => some (s.takeWhile (· ≠ delim), some rest)

/-- `std::stoi`. -/
def stoi (s : Bytes) : Option Int32 :=
  ((integer (-2147483648) 2147483647).run' s).map Int32.ofInt

/-- `std::stoll`. -/
def stoll (s : Bytes) : Option Int64 :=
  ((integer (-9223372036854775808) 9223372036854775807).run' s).map Int64.ofInt

/-- `std::stoull`, which accepts a minus sign and negates modulo `2 ^ 64`. -/
def stoull (s : Bytes) : Option UInt64 := ((unsigned UInt64.size).run' s).map UInt64.ofNat

/-! ### Fields -/

/-- The fields that are left in a stream. -/
def fieldsOf (delim : UInt8) : Option Bytes → List Bytes
  | none => []
  | some s => s.splitOn delim

section Fields

variable {delim : UInt8} {s : Bytes}

/-- The first field is what stands in front of the first delimiter. -/
private theorem splitOn_eq (delim : UInt8) (s : Bytes) :
    s.splitOn delim = match s.dropWhile (· ≠ delim) with
      | [] => [s]
      | _ :: rest => s.takeWhile (· ≠ delim) :: rest.splitOn delim := by
  have hfree : delim ∉ s.takeWhile (· ≠ delim) := fun hmem => by
    simpa using List.mem_takeWhile_imp hmem
  split
  · rename_i hnil
    have hall : s.takeWhile (· ≠ delim) = s := by
      have := List.takeWhile_append_dropWhile (p := (decide <| · ≠ delim)) (l := s)
      rwa [hnil, List.append_nil] at this
    exact List.splitOn_eq_singleton (hall ▸ hfree)
  · rename_i c rest hcons
    have hc : c = delim := by
      have := List.head?_dropWhile_not (· ≠ delim) s
      rw [hcons] at this
      simpa using this
    subst hc
    have happend : s = s.takeWhile (· ≠ c) ++ c :: rest := by
      rw [← hcons]
      exact (List.takeWhile_append_dropWhile).symm
    conv_lhs => rw [happend]
    exact List.splitOn_append_cons_self_of_not_mem hfree rest

/-- The fields of a string do not contain the delimiter. -/
theorem not_mem_of_mem_splitOn {field : Bytes} (h : field ∈ s.splitOn delim) : delim ∉ field := by
  induction hn : s.length using Nat.strong_induction_on generalizing s with
  | _ n ih =>
    by_cases hdelim : delim ∈ s
    · obtain ⟨first, rest, rfl, hfirst⟩ := List.eq_append_cons_of_mem hdelim
      rw [List.splitOn_append_cons_self_of_not_mem hfirst] at h
      rcases List.mem_cons.mp h with rfl | hrest
      · exact hfirst
      · refine ih rest.length ?_ hrest rfl
        rw [← hn, List.length_append, List.length_cons]
        omega
    · rw [List.splitOn_eq_singleton hdelim, List.mem_singleton] at h
      exact h ▸ hdelim

/-- `getline` never throws: it stores the next field and leaves the others. -/
theorem getline_eq (delim : UInt8) (target : Bytes) (st : Option Bytes) :
    ∃ st', getline delim target st = some ((fieldsOf delim st).headD target, st') ∧
      fieldsOf delim st' = (fieldsOf delim st).tail := by
  cases st with
  | none => exact ⟨none, rfl, rfl⟩
  | some s =>
    rw [fieldsOf, splitOn_eq, getline]
    split
    · exact ⟨none, rfl, rfl⟩
    · rename_i rest _
      exact ⟨some rest, rfl, rfl⟩

/-- A computation that starts with `getline` goes on with the next field. -/
theorem run'_getline_bind {β : Type} (delim : UInt8) (target : Bytes) (f : Bytes → LineReader β)
    (st : Option Bytes) :
    ∃ st', fieldsOf delim st' = (fieldsOf delim st).tail ∧
      (getline delim target >>= f).run' st = (f ((fieldsOf delim st).headD target)).run' st' := by
  obtain ⟨st', hrun, hfields⟩ := getline_eq delim target st
  refine ⟨st', hfields, ?_⟩
  rw [StateT.run'_eq, StateT.run'_eq, StateT.run_bind, StateT.run, hrun]
  rfl

/-- Joined fields contain the delimiter and the bytes of the fields. -/
theorem mem_of_mem_intercalate {c : UInt8} {fs : List Bytes}
    (hc : c ∈ List.intercalate [delim] fs) : c = delim ∨ ∃ f ∈ fs, c ∈ f := by
  induction fs with
  | nil => cases hc
  | cons f fs ih =>
    rcases eq_or_ne fs [] with rfl | hne
    · exact .inr ⟨f, List.mem_cons_self, by simpa using hc⟩
    · rw [List.intercalate_cons_of_ne_nil hne, List.mem_append, List.mem_append,
        List.mem_singleton] at hc
      rcases hc with (hc | hc) | hc
      · exact .inr ⟨f, List.mem_cons_self, hc⟩
      · exact .inl hc
      · exact (ih hc).imp_right fun ⟨g, hg, hmem⟩ => ⟨g, List.mem_cons_of_mem f hg, hmem⟩

end Fields

/-! ### Rules -/

section Rules

variable {α β : Type} {delim : UInt8} {r : LineReader α} {f : α → LineReader β}
  {fs gs : List Bytes} {a : α} {b : β}

/-- From a stream whose next fields are `fs`, the computation takes exactly these and returns
`a`. -/
def Takes (delim : UInt8) (r : LineReader α) (fs : List Bytes) (a : α) : Prop :=
  ∀ st rest, fieldsOf delim st = fs ++ rest →
    ∃ st', r.run st = some (a, st') ∧ fieldsOf delim st' = rest

theorem takes_pure (a : α) : Takes delim (pure a) [] a := fun st _ hst => ⟨st, rfl, hst⟩

theorem takes_getline (target field : Bytes) :
    Takes delim (getline delim target) [field] field := by
  intro st rest hst
  obtain ⟨st', hrun, hst'⟩ := getline_eq delim target st
  rw [hst] at hrun hst'
  exact ⟨st', hrun, hst'⟩

/-- A conversion reads nothing. -/
theorem takes_lift {o : Option α} (h : o = some a) : Takes delim (liftM o) [] a := by
  intro st rest hst
  subst h
  exact ⟨st, rfl, hst⟩

theorem Takes.bind (hr : Takes delim r fs a) (hf : Takes delim (f a) gs b) :
    Takes delim (r >>= f) (fs ++ gs) b := by
  intro st rest hst
  rw [List.append_assoc] at hst
  obtain ⟨st₁, hrun, hst₁⟩ := hr st _ hst
  obtain ⟨st₂, hrun', hst₂⟩ := hf st₁ rest hst₁
  refine ⟨st₂, ?_, hst₂⟩
  rw [StateT.run_bind, hrun]
  exact hrun'

/-- What a computation makes of a string whose first fields it takes. -/
theorem Takes.run'_of_splitOn {s : Bytes} (hr : Takes delim r fs a)
    (hs : s.splitOn delim = fs ++ gs) : r.run' (some s) = some a := by
  obtain ⟨st, hrun, -⟩ := hr (some s) gs hs
  change (r.run (some s)).map Prod.fst = _
  rw [hrun]
  rfl

/-- What a computation makes of a whole string. -/
theorem Takes.run'_eq {s : Bytes} (hr : Takes delim r (s.splitOn delim) a) :
    r.run' (some s) = some a := hr.run'_of_splitOn (List.append_nil _).symm

/-- Started from a stream that satisfies `I`, the computation returns only values that satisfy
`P` and leaves a stream that satisfies `I`. -/
def Ensures (I : Option Bytes → Prop) (r : LineReader α) (P : α → Prop) : Prop :=
  ∀ st, I st → ∀ a st', r.run st = some (a, st') → P a ∧ I st'

variable {I : Option Bytes → Prop} {P : α → Prop} {Q : β → Prop}

theorem ensures_pure (h : P a) : Ensures I (pure a) P := by
  intro st hst a' st' hrun
  obtain ⟨rfl, rfl⟩ := Prod.mk.inj (Option.some.inj hrun)
  exact ⟨h, hst⟩

theorem ensures_lift {o : Option α} (h : ∀ a, o = some a → P a) : Ensures I (liftM o) P := by
  intro st hst a st' hrun
  cases o with
  | none => cases hrun
  | some a' =>
    obtain ⟨rfl, rfl⟩ := Prod.mk.inj (Option.some.inj hrun)
    exact ⟨h _ rfl, hst⟩

theorem Ensures.mono {P' : α → Prop} (hr : Ensures I r P) (h : ∀ a, P a → P' a) :
    Ensures I r P' := by
  intro st hst a st' hrun
  obtain ⟨ha, hst'⟩ := hr st hst a st' hrun
  exact ⟨h a ha, hst'⟩

theorem Ensures.bind (hr : Ensures I r P) (hf : ∀ a, P a → Ensures I (f a) Q) :
    Ensures I (r >>= f) Q := by
  intro st hst b st' hrun
  obtain ⟨⟨a, st₁⟩, ha, hb⟩ := Option.bind_eq_some_iff.mp hrun
  obtain ⟨hP, hst₁⟩ := hr st hst a st₁ ha
  exact hf a hP st₁ hst₁ b st' hb

/-- What a computation makes of a whole string satisfies what it ensures. -/
theorem Ensures.of_run' {s : Bytes} (hr : Ensures I r P) (hs : I (some s))
    (h : r.run' (some s) = some a) : P a := by
  obtain ⟨⟨a', st⟩, hrun, rfl⟩ := Option.map_eq_some_iff.mp h
  exact (hr _ hs _ _ hrun).1

/-- The bytes of `avoid` do not occur in what is left of the stream. -/
def Without (avoid : Bytes) (st : Option Bytes) : Prop :=
  ∀ s, st = some s → ∀ c ∈ avoid, c ∉ s

/-- A field is the old target, or contains neither the delimiter nor any byte that the stream does
not contain. -/
theorem ensures_getline (delim : UInt8) (avoid target : Bytes) :
    Ensures (Without avoid) (getline delim target) fun field =>
      field = target ∨ ∀ c ∈ delim :: avoid, c ∉ field := by
  intro st hst field st' hrun
  cases st with
  | none =>
    obtain ⟨rfl, rfl⟩ := Prod.mk.inj (Option.some.inj hrun)
    exact ⟨.inl rfl, hst⟩
  | some s =>
    have hs := hst s rfl
    have hsplit := List.takeWhile_append_dropWhile (p := (decide <| · ≠ delim)) (l := s)
    have hdelim : delim ∉ s.takeWhile (· ≠ delim) := fun hmem => by
      simpa using List.mem_takeWhile_imp hmem
    rw [StateT.run, getline] at hrun
    split at hrun
    · rename_i hnil
      obtain ⟨rfl, rfl⟩ := Prod.mk.inj (Option.some.inj hrun)
      rw [hnil, List.append_nil] at hsplit
      exact ⟨.inr (List.forall_mem_cons.mpr ⟨hsplit ▸ hdelim, hs⟩), fun _ h => by cases h⟩
    · rename_i c rest hcons
      obtain ⟨rfl, rfl⟩ := Prod.mk.inj (Option.some.inj hrun)
      rw [hcons] at hsplit
      refine ⟨.inr (List.forall_mem_cons.mpr ⟨hdelim, fun d hd hmem => hs d hd ?_⟩), ?_⟩
      · rw [← hsplit]
        exact List.mem_append_left _ hmem
      · intro left hleft d hd hmem
        obtain rfl := Option.some.inj hleft
        refine hs d hd ?_
        rw [← hsplit]
        exact List.mem_append_right _ (List.mem_cons_of_mem c hmem)

/-- A field read into a new string. -/
theorem ensures_getline_nil (delim : UInt8) (avoid : Bytes) :
    Ensures (Without avoid) (getline delim []) fun field => ∀ c ∈ delim :: avoid, c ∉ field :=
  (ensures_getline delim avoid []).mono fun field hfield => by
    rcases hfield with rfl | hfield
    · exact fun _ _ => List.not_mem_nil
    · exact hfield

end Rules

/-! ### Conversions -/

/-- A rendered integer is a numeral from end to end. -/
theorem numeral_decimalInt (z : ℤ) : numeral (decimalInt z) = some (signMagnitude z, []) := by
  have hspace : (decimalInt z).dropWhile isSpace = decimalInt z :=
    List.dropWhile_eq_self_iff.mpr fun hpos => by
      simpa using isSpace_of_mem_decimalInt (List.getElem_mem hpos)
  have hdigits (n : ℕ) : (decimal n).takeWhile isDigit = decimal n ∧
      (decimal n).dropWhile isDigit = [] := by
    have hall : ∀ b ∈ decimal n, isDigit b = true := fun b hb => isDigit_of_mem_decimal hb
    exact ⟨List.takeWhile_eq_self_iff.mpr hall, List.dropWhile_eq_nil_iff.mpr hall⟩
  rw [numeral, hspace]
  cases z with
  | ofNat n =>
    have hsign : splitSign (decimal n) = (false, decimal n) := by
      simpa using splitSign_decimal n []
    simp only [decimalInt, hsign, hdigits, decimal_ne_nil, ↓reduceIte, digitsValue_decimal,
      signMagnitude]
  | negSucc n =>
    simp only [decimalInt, splitSign, hdigits, decimal_ne_nil, ↓reduceIte, digitsValue_decimal,
      signMagnitude]

theorem integer_decimalInt {lo hi z : ℤ} (hlo : lo ≤ z) (hhi : z ≤ hi) :
    (integer lo hi).run' (decimalInt z) = some z := by
  have hv : (if (signMagnitude z).1 then -((signMagnitude z).2 : ℤ) else (signMagnitude z).2) =
      z := by
    cases z <;> rfl
  change ((numeral (decimalInt z)).bind fun p => _).map _ = _
  rw [numeral_decimalInt]
  simp only [Option.bind_some, hv, hlo, hhi, and_self, ↓reduceIte]
  rfl

theorem stoi_decimalInt (v : Int32) : stoi (decimalInt v.toInt) = some v := by
  rw [stoi, integer_decimalInt (by simpa using v.minValue_le_toInt)
    (by have := v.toInt_lt; omega), Option.map_some, Int32.ofInt_toInt]

theorem stoll_decimalInt (v : Int64) : stoll (decimalInt v.toInt) = some v := by
  rw [stoll, integer_decimalInt (by simpa using v.minValue_le_toInt)
    (by have := v.toInt_lt; omega), Option.map_some, Int64.ofInt_toInt]

/-- A rendered natural number is converted when it fits 64 bits; a larger one throws. -/
theorem stoull_decimal_eq (n : ℕ) :
    stoull (decimal n) = if n < UInt64.size then some (UInt64.ofNat n) else none := by
  have hn : decimal n = decimalInt n := rfl
  have hmagnitude : signMagnitude n = (false, n) := rfl
  rw [stoull, hn]
  change (((numeral (decimalInt n)).bind fun p => _).map _).map _ = _
  rw [numeral_decimalInt, hmagnitude]
  simp only [Option.bind_some, Bool.false_eq_true, ↓reduceIte]
  split_ifs with h
  · rfl
  · rfl

theorem stoull_decimal (v : UInt64) : stoull (decimal v.toNat) = some v := by
  rw [stoull_decimal_eq, if_pos v.toNat_lt, UInt64.ofNat_toNat]

example : stoll (ascii " -7|8") = some (-7) := by decide

end ByteText
