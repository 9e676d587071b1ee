import BlockchainCrypto.Text.Bytes
import Mathlib.Data.List.TakeWhile

/-!
# Formatted extraction from a text stream

`operator>>` on an input stream skips white space and then consumes the longest prefix that fits
the target: a run of non-space bytes for a string, an optional sign and a run of digits for an
integer. An extraction fails when nothing fits or when the value is out of range, and a failed
stream stays failed, so a sequence of extractions is a computation in `Option`.

The round-trip rules say when a text is read back as a value. They are stated up to white space in
front of the text, which the next extraction skips anyway, so that they compose: the text of two
extractions in sequence is the concatenation of their texts.

## Main definitions

* `ByteText.Extractor`: a computation that consumes input.
* `ByteText.word`, `ByteText.integer`, `ByteText.unsigned`, `ByteText.times`: extractions.
* `ByteText.Reads r t a`: the extractor `r` reads the text `t` as `a`.

## Main results

* `ByteText.Reads.bind`, `ByteText.Reads.bind_pure`, `ByteText.Reads.times`: composition.
* `ByteText.reads_word`, `ByteText.reads_integer`, `ByteText.reads_unsigned`: single lines.
* `ByteText.word_eq_some`, `ByteText.unsigned_eq_some`, `ByteText.times_eq_some`: what an extraction
  returns.
-/

namespace ByteText

/-- A computation that consumes a prefix of its input or fails. -/
abbrev Extractor (α : Type) := StateT Bytes Option α

/-- Extraction of a string: a non-empty run of bytes that are not white space. -/
def word : Extractor Bytes := fun s =>
  let t := s.dropWhile isSpace
  let w := t.takeWhile (!isSpace ·)
  if w = [] then none else some (w, t.dropWhile (!isSpace ·))

/-- An optional sign in front of a numeral: whether it is a minus, and what follows it. -/
def splitSign : Bytes → Bool × Bytes
  | 45 :: t => (true, t)
  | 43 :: t => (false, t)
  | t => (false, t)

/-- An optionally signed run of decimal digits: the sign and the magnitude. -/
def numeral : Extractor (Bool × ℕ) := fun s =>
  let t := splitSign (s.dropWhile isSpace)
  let ds := t.2.takeWhile isDigit
  if ds = [] then none else some ((t.1, digitsValue ds), t.2.dropWhile isDigit)

/-- Extraction of a signed integer type with values from `lo` to `hi`. -/
def integer (lo hi : ℤ) : Extractor ℤ := do
  let p ← numeral
  let v : ℤ := if p.1 then -p.2 else p.2
  if lo ≤ v ∧ v ≤ hi then pure v else fun _ => none

/-- Extraction of an unsigned integer type with values below `size`. As with `strtoull`, a minus
sign is accepted and the magnitude is negated modulo `size`. -/
def unsigned (size : ℕ) : Extractor ℕ := do
  let p ← numeral
  if p.2 < size then pure (if p.1 then (size - p.2) % size else p.2) else fun _ => none

/-- The same extraction `n` times in sequence. -/
def times {α : Type} (r : Extractor α) : ℕ → Extractor (List α)
  | 0 => pure []
  | n + 1 => do
    let a ← r
    let as ← times r n
    pure (a :: as)

/-- A text with its line end. -/
def line (t : Bytes) : Bytes := t ++ [newline]

/-- A run of white space. -/
def Blank (ws : Bytes) : Prop := ∀ b ∈ ws, isSpace b = true

/-- A string that an extraction returns unchanged: non-empty and without white space. -/
def IsWord (w : Bytes) : Prop := w ≠ [] ∧ ∀ b ∈ w, isSpace b = false

instance (w : Bytes) : Decidable (IsWord w) :=
  decidable_of_iff (w ≠ [] ∧ w.all (!isSpace ·) = true) (by simp [IsWord])

/-- The extractor `r` reads the text `t` as `a`, whatever follows it, leaving at most white space
of the text unread. -/
def Reads {α : Type} (r : Extractor α) (t : Bytes) (a : α) : Prop :=
  ∀ ws rest, Blank ws → ∃ ws', Blank ws' ∧ r.run (ws ++ (t ++ rest)) = some (a, ws' ++ rest)

/-! ### Composition -/

section Composition

variable {α β : Type} {r : Extractor α} {t u : Bytes} {a : α} {b : β}

theorem reads_pure (a : α) : Reads (pure a) [] a := fun ws _ hws => ⟨ws, hws, rfl⟩

theorem Reads.bind {f : α → Extractor β} (hr : Reads r t a) (hf : Reads (f a) u b) :
    Reads (r >>= f) (t ++ u) b := by
  intro ws rest hws
  obtain ⟨ws₁, hws₁, hr⟩ := hr ws (u ++ rest) hws
  obtain ⟨ws₂, hws₂, hf⟩ := hf ws₁ rest hws₁
  refine ⟨ws₂, hws₂, ?_⟩
  rw [StateT.run_bind, List.append_assoc, hr]
  exact hf

/-- A last step that consumes nothing. -/
theorem Reads.bind_pure {f : α → Extractor β} (hr : Reads r t a) (hf : f a = pure b) :
    Reads (r >>= f) t b := by
  rw [← List.append_nil t]
  exact hr.bind (hf ▸ reads_pure b)

theorem Reads.times {f : α → Bytes} :
    (l : List α) → (∀ a ∈ l, Reads r (f a) a) →
      Reads (ByteText.times r l.length) (l.flatMap f) l
  | [], _ => reads_pure []
  | a :: l, h => by
    rw [List.flatMap_cons]
    exact (h a List.mem_cons_self).bind
      ((Reads.times l fun b hb => h b (List.mem_cons_of_mem a hb)).bind_pure rfl)

/-- What a whole text is read as. -/
theorem Reads.run_eq (hr : Reads r t a) : ∃ ws, r.run t = some (a, ws) := by
  obtain ⟨ws, -, h⟩ := hr [] [] (by simp [Blank])
  exact ⟨ws, by simpa using h⟩

/-- What a repeated extraction returns: as many values as asked for, each one extracted. -/
theorem times_eq_some {P : α → Prop} (h : ∀ {s s' a}, r.run s = some (a, s') → P a) {n : ℕ}
    {s s' : Bytes} {as : List α} (htimes : (ByteText.times r n).run s = some (as, s')) :
    as.length = n ∧ ∀ a ∈ as, P a := by
  induction n generalizing s s' as with
  | zero =>
    obtain ⟨rfl, -⟩ := Prod.mk.inj (Option.some.inj htimes)
    simp
  | succ n ih =>
    obtain ⟨⟨a, s₁⟩, ha, htimes⟩ := Option.bind_eq_some_iff.mp htimes
    obtain ⟨⟨as', s₂⟩, has, htimes⟩ := Option.bind_eq_some_iff.mp htimes
    obtain ⟨rfl, -⟩ := Prod.mk.inj (Option.some.inj htimes)
    obtain ⟨hlen, hall⟩ := ih has
    exact ⟨by rw [List.length_cons, hlen], List.forall_mem_cons.mpr ⟨h ha, hall⟩⟩

end Composition

/-! ### Single lines -/

theorem blank_newline : Blank [newline] := by simp [Blank, isSpace_newline]

/-- White space in front of a word is skipped. -/
theorem dropWhile_blank {ws w rest : Bytes} (hws : Blank ws) (hw : IsWord w) :
    (ws ++ (w ++ rest)).dropWhile isSpace = w ++ rest := by
  rw [List.dropWhile_append_of_pos hws]
  obtain ⟨hne, hw⟩ := hw
  cases w with
  | nil => exact absurd rfl hne
  | cons b w =>
    rw [List.cons_append, List.dropWhile_cons_of_neg]
    simp [hw b List.mem_cons_self]

/-- A word on a line of its own is read back. -/
theorem reads_word {w : Bytes} (hw : IsWord w) : Reads word (line w) w := by
  intro ws rest hws
  refine ⟨[newline], blank_newline, ?_⟩
  have hpos : ∀ b ∈ w, (!isSpace b) = true := fun b hb => by simp [hw.2 b hb]
  have hline : line w ++ rest = w ++ (newline :: rest) := by simp [line]
  have htake : (w ++ newline :: rest).takeWhile (!isSpace ·) = w := by
    rw [List.takeWhile_append_of_pos hpos, List.takeWhile_cons_of_neg (by decide),
      List.append_nil]
  have hdrop : (w ++ newline :: rest).dropWhile (!isSpace ·) = newline :: rest := by
    rw [List.dropWhile_append_of_pos hpos, List.dropWhile_cons_of_neg (by decide)]
  change word (ws ++ (line w ++ rest)) = _
  simp only [word, hline, dropWhile_blank hws hw, htake, hdrop, hw.1, ↓reduceIte]
  rfl

/-- An extracted word is non-empty and has no white space. -/
theorem word_eq_some {s w s' : Bytes} (h : word s = some (w, s')) : IsWord w := by
  simp only [word] at h
  split_ifs at h with hne
  obtain ⟨rfl, -⟩ := Prod.mk.inj (Option.some.inj h)
  exact ⟨hne, fun b hb => by simpa using List.mem_takeWhile_imp hb⟩

theorem isWord_decimalInt (z : ℤ) : IsWord (decimalInt z) := by
  refine ⟨?_, fun b hb => isSpace_of_mem_decimalInt hb⟩
  cases z with
  | ofNat n => exact decimal_ne_nil n
  | negSucc n => exact List.cons_ne_nil _ _

private theorem takeWhile_decimal (n : ℕ) (rest : Bytes) :
    (decimal n ++ newline :: rest).takeWhile isDigit = decimal n ∧
      (decimal n ++ newline :: rest).dropWhile isDigit = newline :: rest := by
  have hpos : ∀ b ∈ decimal n, isDigit b = true := fun b hb => isDigit_of_mem_decimal hb
  rw [List.takeWhile_append_of_pos hpos, List.dropWhile_append_of_pos hpos,
    List.takeWhile_cons_of_neg (by decide), List.dropWhile_cons_of_neg (by decide)]
  exact ⟨List.append_nil _, rfl⟩

theorem splitSign_decimal (n : ℕ) (rest : Bytes) :
    splitSign (decimal n ++ rest) = (false, decimal n ++ rest) := by
  have hdigit := fun b (hb : b ∈ decimal n) => isDigit_of_mem_decimal hb
  cases hd : decimal n with
  | nil => exact absurd hd (decimal_ne_nil n)
  | cons b ds =>
    have hb := hdigit b (by simp [hd])
    rw [List.cons_append, splitSign]
    · rintro t ht
      obtain ⟨rfl, -⟩ := List.cons.inj ht
      exact absurd hb (by decide)
    · rintro t ht
      obtain ⟨rfl, -⟩ := List.cons.inj ht
      exact absurd hb (by decide)

/-- The sign and magnitude of an integer. -/
def signMagnitude : ℤ → Bool × ℕ
  | .ofNat n => (false, n)
  | .negSucc n => (true, n + 1)

/-- A decimal rendering on a line of its own is read as its sign and magnitude. -/
theorem reads_numeral (z : ℤ) : Reads numeral (line (decimalInt z)) (signMagnitude z) := by
  intro ws rest hws
  refine ⟨[newline], blank_newline, ?_⟩
  have hline : line (decimalInt z) ++ rest = decimalInt z ++ (newline :: rest) := by simp [line]
  change numeral (ws ++ (line (decimalInt z) ++ rest)) = _
  simp only [numeral, hline, dropWhile_blank hws (isWord_decimalInt z)]
  cases z with
  | ofNat n =>
    obtain ⟨htake, hdrop⟩ := takeWhile_decimal n rest
    simp only [decimalInt, splitSign_decimal, htake, hdrop, decimal_ne_nil, ↓reduceIte,
      digitsValue_decimal]
    rfl
  | negSucc n =>
    obtain ⟨htake, hdrop⟩ := takeWhile_decimal (n + 1) rest
    simp only [decimalInt, List.cons_append, splitSign, htake, hdrop, decimal_ne_nil, ↓reduceIte,
      digitsValue_decimal]
    rfl

/-- An integer in range is read back. -/
theorem reads_integer {lo hi z : ℤ} (hlo : lo ≤ z) (hhi : z ≤ hi) :
    Reads (integer lo hi) (line (decimalInt z)) z := by
  have hv : (if (signMagnitude z).1 then -((signMagnitude z).2 : ℤ)
      else (signMagnitude z).2) = z := by
    cases z <;> rfl
  refine (reads_numeral z).bind_pure ?_
  simp only [hv, hlo, hhi, and_self, ↓reduceIte]

/-- A natural number in range is read back. -/
theorem reads_unsigned {size n : ℕ} (hn : n < size) :
    Reads (unsigned size) (line (decimal n)) n := by
  have hz : line (decimal n) = line (decimalInt n) := rfl
  rw [hz]
  refine (reads_numeral n).bind_pure ?_
  change (if n < size then pure n else _) = _
  rw [if_pos hn]

/-- An extracted unsigned integer is in range. -/
theorem unsigned_eq_some {size v : ℕ} {s s' : Bytes} (h : (unsigned size).run s = some (v, s')) :
    v < size := by
  obtain ⟨⟨⟨neg, n⟩, s₁⟩, -, h⟩ := Option.bind_eq_some_iff.mp h
  dsimp only at h
  split_ifs at h with hlt hneg
  · obtain ⟨rfl, -⟩ := Prod.mk.inj (Option.some.inj h)
    exact Nat.mod_lt _ (by omega)
  · obtain ⟨rfl, -⟩ := Prod.mk.inj (Option.some.inj h)
    exact hlt

example : (integer (-128) 127).run (ascii " \n-12x") = some (-12, ascii "x") := by decide

example : (unsigned 256).run (ascii "-1") = some (255, []) := by decide

end ByteText
