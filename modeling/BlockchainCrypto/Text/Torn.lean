import BlockchainCrypto.Text.Extraction
import BlockchainCrypto.Text.FixedWidth

/-!
# Extraction from a text that is cut short

A text of lines that lost its end may still be extracted from: its last word is shorter, or only the
line end is gone. Such an extraction reaches the end of the input, so that each further one fails,
and a sequence of extractions can succeed only on a text that was cut in its last line.

## Main definitions

* `ByteText.Torn r t P`: cut short, the text `t` makes the extractor `r` fail, or is read to its end
  as a value that `P` relates to what is missing.
* `ByteText.IgnoresEnd r`: a line end at the end of the input changes nothing, and stays unread.

## Main results

* `ByteText.Torn.bind`, `ByteText.Torn.bind_last`, `ByteText.Torn.times`: composition.
* `ByteText.torn_word`, `ByteText.torn_integer`, `ByteText.torn_unsigned`: single lines.
-/

namespace ByteText

variable {α β : Type}

/-- Whatever part of the text `t` the extractor `r` is run on, behind white space: it fails, or the
input is used up and `P` holds of the missing part and of the value. -/
def Torn (r : Extractor α) (t : Bytes) (P : Bytes → α → Prop) : Prop :=
  ∀ ws kept missing a rest, Blank ws → kept ++ missing = t → missing ≠ [] →
    r.run (ws ++ kept) = some (a, rest) → rest = [] ∧ P missing a

/-! ### Composition -/

section Composition

variable {r : Extractor α} {f : α → Extractor β} {t u : Bytes} {a : α}
  {P : Bytes → α → Prop} {Q : Bytes → β → Prop}

/-- Where the second extraction fails without input, the cut is in its text. -/
theorem Torn.bind (hr : Torn r t P) (hread : Reads r t a)
    (hinput : ∀ missing b, P missing b → (f b).run [] = none) (hf : Torn (f a) u Q) :
    Torn (r >>= f) (t ++ u) Q := by
  intro ws kept missing b rest hws hcut hmissing hrun
  obtain ⟨⟨a', s⟩, hfirst, hsecond⟩ := Option.bind_eq_some_iff.mp hrun
  rcases List.append_eq_append_iff.mp hcut with ⟨tail, rfl, rfl⟩ | ⟨keptTail, rfl, hu⟩
  · rcases eq_or_ne tail [] with rfl | htail
    · -- the first text is complete, and nothing of the second is left
      rw [List.append_nil] at hread
      obtain ⟨ws', hws', hrun'⟩ := hread ws [] hws
      rw [List.append_nil, List.append_nil] at hrun'
      obtain ⟨rfl, rfl⟩ := Prod.mk.inj (Option.some.inj (hfirst.symm.trans hrun'))
      exact hf s [] u b rest hws' rfl hmissing (by rwa [List.append_nil])
    · obtain ⟨rfl, ha'⟩ := hr ws kept tail a' s hws rfl htail hfirst
      have hnone : (f a').run [] = some (b, rest) := hsecond
      rw [hinput tail a' ha'] at hnone
      cases hnone
  · obtain ⟨ws', hws', hrun'⟩ := hread ws keptTail hws
    obtain ⟨rfl, rfl⟩ := Prod.mk.inj (Option.some.inj (hfirst.symm.trans hrun'))
    exact hf ws' keptTail missing b rest hws' hu.symm hmissing hsecond

/-- What follows the last line is run without input. -/
theorem Torn.bind_last (hr : Torn r t P)
    (hf : ∀ missing a b rest, P missing a → (f a).run [] = some (b, rest) →
      rest = [] ∧ Q missing b) : Torn (r >>= f) t Q := by
  intro ws kept missing b rest hws hcut hmissing hrun
  obtain ⟨⟨a, s⟩, hfirst, hlast⟩ := Option.bind_eq_some_iff.mp hrun
  obtain ⟨rfl, ha⟩ := hr ws kept missing a s hws hcut hmissing hfirst
  exact hf missing a b rest ha hlast

/-- A value computed from the last line. -/
theorem Torn.map {g : α → β} (hr : Torn r t P) (hg : ∀ missing a, P missing a → Q missing (g a)) :
    Torn (r >>= fun a => pure (g a)) t Q := by
  refine hr.bind_last fun missing a b rest ha hrun => ?_
  obtain ⟨rfl, rfl⟩ := Prod.mk.inj (Option.some.inj hrun)
  exact ⟨rfl, hg missing a ha⟩

/-- A check of the value that consumes nothing. -/
theorem of_guard_run {c : Prop} [Decidable c] {b b' : β} {s rest : Bytes}
    (h : (if c then pure b else fun _ => none : Extractor β).run s = some (b', rest)) :
    c ∧ b' = b ∧ rest = s := by
  split_ifs at h with hc
  · obtain ⟨rfl, rfl⟩ := Prod.mk.inj (Option.some.inj h)
    exact ⟨hc, rfl, rfl⟩
  · cases h

theorem run_bind_eq_none {s : Bytes} (h : r.run s = none) : (r >>= f).run s = none := by
  rw [StateT.run_bind, h]
  rfl

/-- A repetition needs input if one extraction does. -/
theorem times_run_nil (hr : r.run [] = none) {n : ℕ} (hn : n ≠ 0) :
    (times r n).run [] = none := by
  cases n with
  | zero => exact absurd rfl hn
  | succ n => exact run_bind_eq_none hr

/-- Of repeated extractions only the last one may miss something. -/
theorem Torn.times {f : α → Bytes} {P : α → Bytes → α → Prop} (hr : r.run [] = none) :
    (l : List α) → (∀ a ∈ l, Reads r (f a) a) → (∀ a ∈ l, Torn r (f a) (P a)) →
      Torn (ByteText.times r l.length) (l.flatMap f) fun missing as =>
        ∃ firsts a a', l = firsts ++ [a] ∧ as = firsts ++ [a'] ∧ P a missing a'
  | [], _, _ => by
    intro ws kept missing as rest hws hcut hmissing hrun
    exact absurd (List.append_eq_nil_iff.mp hcut).2 hmissing
  | [a], _, htorn => by
    rw [List.flatMap_singleton]
    refine (htorn a List.mem_cons_self).map fun missing a' ha' => ?_
    exact ⟨[], a, a', rfl, rfl, ha'⟩
  | a :: b :: l, hread, htorn => by
    rw [List.flatMap_cons]
    have ih := Torn.times hr (b :: l) (fun c hc => hread c (List.mem_cons_of_mem a hc))
      fun c hc => htorn c (List.mem_cons_of_mem a hc)
    refine (htorn a List.mem_cons_self).bind (hread a List.mem_cons_self) (fun _ _ _ => ?_) ?_
    · exact run_bind_eq_none (times_run_nil hr (Nat.succ_ne_zero _))
    · refine ih.map fun missing as => ?_
      rintro ⟨firsts, c, c', hl, rfl, hc'⟩
      exact ⟨a :: firsts, c, c', by rw [hl, List.cons_append], rfl, hc'⟩

end Composition

/-! ### Single lines -/

/-- The line end is missing, and perhaps the end of the word before it. -/
theorem exists_of_cut_line {w kept missing : Bytes} (hcut : kept ++ missing = line w)
    (hmissing : missing ≠ []) : ∃ lost, missing = lost ++ [newline] ∧ kept ++ lost = w := by
  obtain ⟨lost, c, rfl⟩ := (List.eq_nil_or_concat' missing).resolve_left hmissing
  rw [line, ← List.append_assoc] at hcut
  obtain ⟨hw, hc⟩ := List.append_inj' hcut rfl
  exact ⟨lost, by rw [hc], hw⟩

theorem prefix_of_cut_line {w kept missing : Bytes} (hcut : kept ++ missing = line w)
    (hmissing : missing ≠ []) : kept <+: w := by
  obtain ⟨lost, -, hw⟩ := exists_of_cut_line hcut hmissing
  exact ⟨lost, hw⟩

/-- White space at the end of the input holds nothing. -/
theorem dropWhile_blank_nil {ws : Bytes} (hws : Blank ws) :
    (ws ++ ([] : Bytes)).dropWhile isSpace = [] := by
  rw [List.append_nil, List.dropWhile_eq_nil_iff]
  exact hws

/-- White space before a part of a word is skipped. -/
theorem dropWhile_blank_prefix {ws w kept : Bytes} (hws : Blank ws) (hw : IsWord w)
    (hkept : kept <+: w) : (ws ++ kept).dropWhile isSpace = kept := by
  rcases eq_or_ne kept [] with rfl | hne
  · exact dropWhile_blank_nil hws
  · have hword : IsWord kept := ⟨hne, fun b hb => hw.2 b (hkept.subset hb)⟩
    rw [← List.append_nil kept]
    exact dropWhile_blank hws hword

theorem torn_word {w : Bytes} (hw : IsWord w) : Torn word (line w) fun _ _ => True := by
  intro ws kept missing a rest hws hcut hmissing hrun
  have hkept := prefix_of_cut_line hcut hmissing
  have hdrop : kept.dropWhile (!isSpace ·) = [] :=
    List.dropWhile_eq_nil_iff.mpr fun b hb => by simp [hw.2 b (hkept.subset hb)]
  change word (ws ++ kept) = _ at hrun
  simp only [word, dropWhile_blank_prefix hws hw hkept, hdrop] at hrun
  split_ifs at hrun
  exact ⟨(Prod.mk.inj (Option.some.inj hrun)).2.symm, trivial⟩

/-- What a part of a numeral is read as. -/
theorem torn_numeral (z : ℤ) : Torn numeral (line (decimalInt z)) fun missing v =>
    0 ≤ z → ∃ kept lost, kept ≠ [] ∧ missing = lost ++ [newline] ∧ kept ++ lost = decimalInt z ∧
      v = (false, digitsValue kept) := by
  intro ws kept missing a rest hws hcut hmissing hrun
  obtain ⟨lost, rfl, hlost⟩ := exists_of_cut_line hcut hmissing
  have hkept : kept <+: decimalInt z := ⟨lost, hlost⟩
  change numeral (ws ++ kept) = _ at hrun
  simp only [numeral, dropWhile_blank_prefix hws (isWord_decimalInt z) hkept] at hrun
  have hdigits {n : ℕ} {ds : Bytes} (h : ds <+: decimal n) : ∀ b ∈ ds, isDigit b = true :=
    fun b hb => isDigit_of_mem_decimal (h.subset hb)
  have hread {ds : Bytes} (h : ∀ b ∈ ds, isDigit b = true) :
      ds.takeWhile isDigit = ds ∧ ds.dropWhile isDigit = [] :=
    ⟨List.takeWhile_eq_self_iff.mpr h, List.dropWhile_eq_nil_iff.mpr h⟩
  cases z with
  | ofNat n =>
    have hsign : splitSign kept = (false, kept) := by
      cases kept with
      | nil => rfl
      | cons b kept =>
        have hb := hdigits hkept b List.mem_cons_self
        rw [splitSign]
        · rintro t ht
          obtain ⟨rfl, -⟩ := List.cons.inj ht
          exact absurd hb (by decide)
        · rintro t ht
          obtain ⟨rfl, -⟩ := List.cons.inj ht
          exact absurd hb (by decide)
    obtain ⟨htake, hdrop⟩ := hread (hdigits hkept)
    simp only [hsign, htake, hdrop] at hrun
    split_ifs at hrun with hne
    obtain ⟨rfl, rfl⟩ := Prod.mk.inj (Option.some.inj hrun)
    exact ⟨rfl, fun _ => ⟨kept, lost, hne, rfl, hlost, rfl⟩⟩
  | negSucc n =>
    refine ⟨?_, fun hz => absurd hz (by omega)⟩
    rcases List.prefix_cons_iff.mp hkept with rfl | ⟨ds, rfl, hds⟩
    · simp [splitSign] at hrun
    · obtain ⟨htake, hdrop⟩ := hread (hdigits hds)
      simp only [splitSign, htake, hdrop] at hrun
      split_ifs at hrun
      exact (Prod.mk.inj (Option.some.inj hrun)).2.symm

theorem torn_integer (lo hi z : ℤ) :
    Torn (integer lo hi) (line (decimalInt z)) fun _ _ => True := by
  refine (torn_numeral z).bind_last fun missing v b rest _ hrun => ?_
  exact ⟨(of_guard_run hrun).2.2, trivial⟩

/-- A natural number that lost digits is a smaller positive one. -/
theorem torn_unsigned (size n : ℕ) : Torn (unsigned size) (line (decimal n)) fun missing m =>
    m ≤ n ∧ (m = 0 → n = 0) ∧ (m = n → missing = [newline]) := by
  refine (torn_numeral n).bind_last fun missing v m rest hv hrun => ?_
  obtain ⟨kept, lost, hne, rfl, hdecimal, rfl⟩ := hv (Int.natCast_nonneg n)
  obtain ⟨-, rfl, hrest⟩ := of_guard_run hrun
  refine ⟨hrest, ?_⟩
  simp only [Bool.false_eq_true, ↓reduceIte]
  rcases eq_or_ne lost [] with rfl | hlost
  · rw [List.append_nil] at hdecimal
    obtain rfl : kept = decimal n := hdecimal
    rw [digitsValue_decimal]
    exact ⟨le_rfl, id, fun _ => rfl⟩
  · obtain ⟨m, rfl, hpos, hlt⟩ := exists_of_append_eq_decimal hdecimal hne hlost
    rw [digitsValue_decimal]
    exact ⟨hlt.le, fun h => absurd h hpos.ne', fun h => absurd h hlt.ne⟩

/-! ### The last line end -/

/-- A line end at the end of the input makes no difference, and stays unread. -/
def IgnoresEnd (r : Extractor α) : Prop :=
  ∀ s, r.run (s ++ [newline]) = (r.run s).map fun v => (v.1, v.2 ++ [newline])

theorem ignoresEnd_pure (a : α) : IgnoresEnd (pure a) := fun _ => rfl

theorem ignoresEnd_fail : IgnoresEnd (fun _ => none : Extractor α) := fun _ => rfl

theorem IgnoresEnd.bind {r : Extractor α} {f : α → Extractor β} (hr : IgnoresEnd r)
    (hf : ∀ a, IgnoresEnd (f a)) : IgnoresEnd (r >>= f) := by
  intro s
  rw [StateT.run_bind, StateT.run_bind, hr s]
  cases r.run s with
  | none => rfl
  | some v => exact hf v.1 v.2

theorem IgnoresEnd.ite {c : Prop} [Decidable c] {r r' : Extractor α} (hr : IgnoresEnd r)
    (hr' : IgnoresEnd r') : IgnoresEnd (if c then r else r') := by
  split_ifs
  exacts [hr, hr']

theorem IgnoresEnd.times {r : Extractor α} (hr : IgnoresEnd r) :
    (n : ℕ) → IgnoresEnd (ByteText.times r n)
  | 0 => ignoresEnd_pure []
  | n + 1 => hr.bind fun _ => (IgnoresEnd.times hr n).bind fun _ => ignoresEnd_pure _

/-- What comes before a line end is found without it. -/
theorem IgnoresEnd.run_of_line {r : Extractor α} (hr : IgnoresEnd r) {s rest : Bytes} {a : α}
    (h : r.run (line s) = some (a, rest)) : ∃ rest', r.run s = some (a, rest') := by
  rw [line, hr s] at h
  obtain ⟨⟨a', rest'⟩, hrun, heq⟩ := Option.map_eq_some_iff.mp h
  obtain ⟨rfl, -⟩ := Prod.mk.inj heq
  exact ⟨rest', hrun⟩

theorem takeWhile_line {p : UInt8 → Bool} (hp : p newline = false) (s : Bytes) :
    (s ++ [newline]).takeWhile p = s.takeWhile p := by
  induction s with
  | nil => rw [List.nil_append, List.takeWhile_cons_of_neg (by simp [hp]), List.takeWhile_nil]
  | cons b s ih => rw [List.cons_append, List.takeWhile_cons, List.takeWhile_cons, ih]

theorem dropWhile_line {p : UInt8 → Bool} (hp : p newline = false) (s : Bytes) :
    (s ++ [newline]).dropWhile p = s.dropWhile p ++ [newline] := by
  induction s with
  | nil => rw [List.nil_append, List.dropWhile_cons_of_neg (by simp [hp]), List.dropWhile_nil,
      List.nil_append]
  | cons b s ih =>
    rw [List.cons_append, List.dropWhile_cons, List.dropWhile_cons, ih]
    split_ifs <;> rfl

/-- The white space of the last line is skipped together with the line end. -/
theorem skip_line (s : Bytes) :
    (s ++ [newline]).dropWhile isSpace = [] ∧ s.dropWhile isSpace = [] ∨
      (s ++ [newline]).dropWhile isSpace = s.dropWhile isSpace ++ [newline] := by
  rw [List.dropWhile_append]
  split_ifs with hblank
  · exact .inl ⟨rfl, List.isEmpty_iff.mp hblank⟩
  · exact .inr rfl

theorem ignoresEnd_word : IgnoresEnd word := by
  intro s
  change word (s ++ [newline]) = (word s).map _
  rcases skip_line s with ⟨hline, hs⟩ | hline
  · simp only [word, hline, hs]
    rfl
  · simp only [word, hline, takeWhile_line (p := (!isSpace ·)) rfl,
      dropWhile_line (p := (!isSpace ·)) rfl]
    split_ifs <;> rfl

theorem splitSign_line (s : Bytes) :
    splitSign (s ++ [newline]) = ((splitSign s).1, (splitSign s).2 ++ [newline]) := by
  cases s with
  | nil => rfl
  | cons b s =>
    rw [List.cons_append]
    unfold splitSign
    split <;> simp_all

theorem ignoresEnd_numeral : IgnoresEnd numeral := by
  intro s
  change numeral (s ++ [newline]) = (numeral s).map _
  rcases skip_line s with ⟨hline, hs⟩ | hline
  · simp only [numeral, hline, hs]
    rfl
  · simp only [numeral, hline, splitSign_line, takeWhile_line (p := isDigit) rfl,
      dropWhile_line (p := isDigit) rfl]
    split_ifs <;> rfl

theorem ignoresEnd_integer (lo hi : ℤ) : IgnoresEnd (integer lo hi) :=
  ignoresEnd_numeral.bind fun _ => (ignoresEnd_pure _).ite ignoresEnd_fail

theorem ignoresEnd_unsigned (size : ℕ) : IgnoresEnd (unsigned size) :=
  ignoresEnd_numeral.bind fun _ => (ignoresEnd_pure _).ite ignoresEnd_fail

end ByteText
