import BlockchainCrypto.Text.Extraction

/-!
# Lines of a text

`while (std::getline(stream, line))` reads a text line by line. A read succeeds as long as there is
a byte left: the last line need not be terminated, and nothing follows a newline at the end.

## Main definitions

* `ByteText.readLine`: one `std::getline`, which fails at the end of the text.
* `ByteText.lines`: all lines of a text.

## Main results

* `ByteText.readLine_line`: a terminated line is read back.
* `ByteText.newline_not_mem_of_readLine`: what is read has no newline.
* `ByteText.lines_flatMap_line`: the lines of a text that was written line by line.
-/

namespace ByteText

/-- `std::getline(stream, line)`: the line, and failure at the end of the text. -/
def readLine : Extractor Bytes := fun s =>
  if s = [] then none
  else some (s.takeWhile (· ≠ newline), (s.dropWhile (· ≠ newline)).tail)

theorem readLine_eq_some {s t rest : Bytes} (h : readLine s = some (t, rest)) :
    s ≠ [] ∧ t = s.takeWhile (· ≠ newline) ∧ rest = (s.dropWhile (· ≠ newline)).tail := by
  rw [readLine] at h
  split_ifs at h with hs
  obtain ⟨rfl, rfl⟩ := Prod.mk.inj (Option.some.inj h)
  exact ⟨hs, rfl, rfl⟩

theorem length_lt_of_readLine {s t rest : Bytes} (h : readLine s = some (t, rest)) :
    rest.length < s.length := by
  obtain ⟨hs, -, rfl⟩ := readLine_eq_some h
  have hpos := List.length_pos_iff.mpr hs
  have hle := List.length_dropWhile_le (decide <| · ≠ newline) s
  rw [List.length_tail]
  omega

theorem newline_not_mem_of_readLine {s t rest : Bytes} (h : readLine s = some (t, rest)) :
    newline ∉ t := by
  obtain ⟨-, rfl, -⟩ := readLine_eq_some h
  exact fun hmem => by simpa using List.mem_takeWhile_imp hmem

/-- The lines that `while (std::getline(stream, line))` goes through. -/
def lines (s : Bytes) : List Bytes :=
  match _h : readLine s with
  | none => []
  | some (t, rest) => t :: lines rest
termination_by s.length
decreasing_by exact length_lt_of_readLine _h

theorem lines_nil : lines [] = [] := by
  rw [lines]
  rfl

/-- A terminated line is read back. -/
theorem readLine_line {t : Bytes} (ht : newline ∉ t) (rest : Bytes) :
    readLine (line t ++ rest) = some (t, rest) := by
  have hfree : ∀ b ∈ t, (decide <| b ≠ newline) = true := fun b hb =>
    decide_eq_true fun h => ht (h ▸ hb)
  have hline : line t ++ rest = t ++ newline :: rest := by simp [line]
  have htake : (newline :: rest).takeWhile (· ≠ newline) = [] := by simp
  have hdrop : (newline :: rest).dropWhile (· ≠ newline) = newline :: rest := by simp
  rw [readLine, hline, if_neg (by simp), List.takeWhile_append_of_pos hfree, htake,
    List.append_nil, List.dropWhile_append_of_pos hfree, hdrop, List.tail_cons]

theorem lines_line_append {t : Bytes} (ht : newline ∉ t) (rest : Bytes) :
    lines (line t ++ rest) = t :: lines rest := by
  rw [lines]
  split
  · rename_i hnone
    rw [readLine_line ht] at hnone
    cases hnone
  · rename_i t' rest' hsome
    rw [readLine_line ht] at hsome
    obtain ⟨rfl, rfl⟩ := Prod.mk.inj (Option.some.inj hsome)
    rfl

/-- A text that was written line by line. -/
theorem lines_flatMap_line {ts : List Bytes} (hts : ∀ t ∈ ts, newline ∉ t) :
    lines (ts.flatMap line) = ts := by
  induction ts with
  | nil => exact lines_nil
  | cons t ts ih =>
    rw [List.flatMap_cons, lines_line_append (hts t List.mem_cons_self),
      ih fun u hu => hts u (List.mem_cons_of_mem _ hu)]

end ByteText
