import Mathlib.Data.List.Pairwise
import Script.Proofs.ImpossibleBranches
import Script.Proofs.Layout
import Script.Proofs.ObjectionsInOrder

/-!
# Syntax errors are reported together

The errors in the words of a text and the objections to how they are put together are both found in
the order of the text, and never at one position. A session that finds any of them reports them all,
merged, and does nothing else. Merging goes by positions, so the order in which things were found is
kept only in a text that is short enough for its positions to be exact.
-/

namespace Script

/-! ## Words that are not tokens -/

namespace Scanned

/-- Two characters that are not expected, with blanks between them. -/
def farApart (blanks : Nat) : String :=
  String.ofList ('@' :: (List.replicate blanks ' ' ++ ['@']))

theorem scan_blanks (n : Nat) (cs : List Char) (p : Position) :
    Cursor.scan ⟨List.replicate n ' ' ++ cs, p⟩ =
      Cursor.scan ⟨cs, p.after (List.replicate n ' ')⟩ := by
  induction n generalizing p with
  | zero => rfl
  | succ n ih =>
    rw [List.replicate_succ, List.cons_append, Cursor.scan_blank (by decide), ih,
      ← Position.after_append, List.singleton_append]

theorem errors_farApart (n : Nat) : (ofText (farApart n)).errors =
    [.unexpected ⟨1, 1⟩ '@', .unexpected ⟨1, Position.wrap (n + 2 : Nat)⟩ '@'] := by
  have hafter : (Position.start.after ['@']).after (List.replicate n ' ') =
      ⟨1, Position.wrap (n + 2 : Nat)⟩ := by
    have hcolumn : ('@' :: List.replicate n ' ').reverse.takeWhile (· != '\n') =
        ('@' :: List.replicate n ' ').reverse := by
      refine List.takeWhile_eq_self_iff.mpr fun c hc => ?_
      rcases List.mem_cons.mp (List.mem_reverse.mp hc) with rfl | hc
      · rfl
      · rw [List.eq_of_mem_replicate hc]
        rfl
    have hline : ('@' :: List.replicate n ' ').count '\n' = 0 := by
      simp [List.count_replicate]
    rw [← Position.after_append, List.singleton_append, Position.after_start, Position.counted,
      hcolumn, hline, List.length_reverse, List.length_cons, List.length_replicate]
    congr 2
    omega
  have hscan : (Cursor.ofText (farApart n)).scan = [.error (.unexpected ⟨1, 1⟩ '@'),
      .error (.unexpected ⟨1, Position.wrap (n + 2 : Nat)⟩ '@'),
      .ok (.finish ((Position.mk 1 (Position.wrap (n + 2 : Nat))).after ['@']))] := by
    have hread : ∀ cs, Word.read '@' cs = .unexpected '@' cs := by
      intro cs
      cases cs <;> rfl
    rw [Cursor.ofText, farApart, String.toList_ofList, Cursor.scan_word (by decide) (by simp), hread,
      Word.rest, Word.source, scan_blanks, hafter, Cursor.scan_word (by decide) (by simp), hread,
      Word.rest, Word.source, Cursor.scan_nil]
    rfl
  rw [ofText_errors, hscan]
  rfl

/-- The positions of a long text need not go up. -/
theorem errors_unordered : ¬ (ofText (farApart (2 ^ 31 - 1))).errors.Pairwise
    fun e f => e.start.Before f.start := by
  rw [errors_farApart]
  have hwrapped : Position.wrap ((2 ^ 31 - 1 + 2 : Nat)) = 1 - 2 ^ 31 := by decide
  rw [hwrapped]
  simp [ScanError.start, Position.Before]

end Scanned

/-! ## Merged diagnostics -/

namespace Diagnostic

end Diagnostic

/-! ## Requests -/

namespace Request

variable (r : Request)

def errors : List ScanError := (Scanned.ofText r.source).errors

end Request

namespace Session

end Session

end Script
