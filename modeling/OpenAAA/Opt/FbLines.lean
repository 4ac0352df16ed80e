import OpenAAA.Opt.Input
import OpenAAA.Opt.FbFileReads
import OpenAAA.Opt.FbBuffer

/-!
The lines of a configuration. `get_line` of `input.c` takes them from a fastbuf; the parser there
is modelled on the bytes that are left of the text. Both are the same, whatever back-end serves the
text and wherever its buffer ends.
-/

namespace OpenAAA.Fastbufs

open Memory Opt

variable {σ : Type}

/-- `get_line`: the line, or a message, or nothing at the end. -/
def getLineFb (be : BackEnd σ) (f : Fastbuf σ) :
    Except FbFault (Fastbuf σ × Option (List Byte) × Msg) :=
  match bgetsNodie be f maxLine with
  | .error fault => .error fault
  | .ok (f, .nothing) => .ok (f, none, none)
  | .ok (f, .long _) => .ok (f, none, some "Line too long")
  | .ok (f, .line bytes) => .ok (f, some (skipSpace (bytes.takeWhile (· ≠ 0))), none)

/-- All lines, up to the end or a message -/
def fbLines (be : BackEnd σ) : Nat → Fastbuf σ → Except FbFault (List (List Byte) × Msg)
  | 0, _ => .error .stuck
  | fuel + 1, f =>
    match getLineFb be f with
    | .error fault => .error fault
    | .ok (_, none, msg) => .ok ([], msg)
    | .ok (f, some line, _) => (fbLines be fuel f).map fun r => (line :: r.1, r.2)

/-- The same by the parser on texts -/
def textLines : Nat → ParserState → List (List Byte) × Msg
  | 0, _ => ([], none)
  | fuel + 1, p =>
    match getLine p with
    | (_, false, msg) => ([], msg)
    | (p, true, _) => (p.line :: (textLines fuel p).1, (textLines fuel p).2)

variable {be : BackEnd σ} {s : Stream} {Own : Fastbuf σ → Prop} {p : Nat} {f : Fastbuf σ}

/-- The next line by the parser on texts -/
theorem getLine_eq (rest line : List Byte) :
    getLine ⟨rest, line⟩ =
      match nextLine rest maxLine with
      | (.nothing, _) => (⟨rest, line⟩, false, none)
      | (.long _, _) => (⟨rest, line⟩, false, some "Line too long")
      | (.line bytes, n) => (⟨rest.drop n, skipSpace (bytes.takeWhile (· ≠ 0))⟩, true, none) := by
  rw [getLine, nextLine]
  by_cases hempty : rest = []
  · rw [if_pos hempty, if_pos (List.isEmpty_iff.mpr hempty)]
  · rw [if_neg hempty, if_neg (mt List.isEmpty_iff.mp hempty)]
    by_cases hlong : maxLine ≤ (rest.takeWhile (· ≠ 10)).length
    · rw [if_pos hlong, if_neg (not_lt.mpr hlong)]
    · rw [if_neg hlong, if_pos (not_le.mp hlong)]
      dsimp only
      have hdrop : rest.drop (min ((rest.takeWhile (· ≠ 10)).length + 1) rest.length) =
          rest.drop ((rest.takeWhile (· ≠ 10)).length + 1) := by
        rcases le_total ((rest.takeWhile (· ≠ 10)).length + 1) rest.length with hle | hle
        · rw [min_eq_left hle]
        · rw [min_eq_right hle, List.drop_length, List.drop_eq_nil_of_le hle]
      rw [hdrop]

/-- A line takes at least one byte. -/
theorem nextLine_pos {rest bytes : List Byte} {l n : Nat} (h : nextLine rest l = (.line bytes, n)) :
    0 < n ∧ n ≤ rest.length := by
  rw [nextLine] at h
  split at h
  · cases h
  · next hempty =>
      have hpos : 0 < rest.length := by
        rw [List.length_pos_iff, ne_eq, ← List.isEmpty_iff]
        exact hempty
      split at h
      · cases h
        omega
      · cases h

theorem fbLines_ok (hserves : Serves be s Own) (fuel : Nat) {p : Nat} {f : Fastbuf σ}
    (h : Reading s Own p f) (hfuel : (s.content.drop p).length < fuel) (line : List Byte) :
    fbLines be fuel f = .ok (textLines fuel ⟨s.content.drop p, line⟩) := by
  induction fuel generalizing p f line with
  | zero => omega
  | succ fuel ih =>
      obtain ⟨f', hrun, hreading⟩ := bgetsNodie_ok hserves h (l := maxLine) (by decide)
      rw [fbLines, textLines, getLineFb, hrun, getLine_eq]
      cases hnext : nextLine (s.content.drop p) maxLine with
      | mk r n =>
          cases r with
          | nothing => rfl
          | long bytes => rfl
          | line bytes =>
              obtain ⟨hpos, hle⟩ := nextLine_pos hnext
              rw [hnext] at hreading
              dsimp only at hreading ⊢
              have hdrop : (s.content.drop p).drop n = s.content.drop (p + n) := List.drop_drop
              rw [hdrop, ih hreading (by rw [← hdrop, List.length_drop]; omega)]
              rfl

/-- The lines of a text, from a file or from memory -/
theorem configLines_ok (io : Nat → Nat) (text : List Byte) {bufLen : Nat} (hbuf : 0 < bufLen)
    (hsize : 4 * bufLen < 2 ^ 32) (htext : text.length < 2 ^ 32) (keepBackBuf dieOnEof : Bool) :
    fbLines (fileBackEnd io) (text.length + 1) (bfdopenInternal text bufLen keepBackBuf dieOnEof) =
        .ok (textLines (text.length + 1) ⟨text, []⟩) ∧
      fbLines fbbufReads (text.length + 1) (fbbufInitRead text) =
        .ok (textLines (text.length + 1) ⟨text, []⟩) := by
  constructor
  · exact fbLines_ok (file_serves io text dieOnEof) _
      (opened_reading text hbuf hsize keepBackBuf dieOnEof) (Nat.lt_succ_self _) []
  · exact fbLines_ok (fbbuf_serves text false) _ (fbbufInitRead_reading text htext)
      (Nat.lt_succ_self _) []

/-- Two lines with a buffer of three bytes -/
theorem configLines_ok_small :
    [97, 98, 99, 10, 32, 100].length < 2 ^ 32 ∧
      fbLines (fileBackEnd fun _ => 2) 7 (bfdopenInternal [97, 98, 99, 10, 32, 100] 3 false false) =
        .ok ([[97, 98, 99], [100]], none) := by
  have h := configLines_ok (fun _ => 2) [97, 98, 99, 10, 32, 100] (show 0 < 3 by decide)
    (by decide) (by decide) false false
  exact ⟨by decide, h.1⟩

end OpenAAA.Fastbufs
