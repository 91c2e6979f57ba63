import StagedInstall.Defaults
import StagedInstall.Proofs.Toml.Strings

/-! # The text of a user's defaults

The one line that defaults are written as is read as a statement that sets the prefix to the string
in it (`statements_line`), so what is written reads back (`parse_render`).
-/

namespace StagedInstall.Defaults

open Toml

def line (s : List Char) : List Char := "default_prefix = ".toList ++ (write s ++ ['\n'])

theorem key_line (t : List Char) : key ("default_prefix = ".toList ++ t) =
    some (⟨[], prefixKey⟩, '=' :: ' ' :: t) := rfl

theorem value_write (depth : Nat) (s : List Char) :
    value depth (write s ++ ['\n']) = some (.string (.ofList s), ['\n']) := by
  obtain ⟨q, r, hw, hq⟩ := exists_write s
  have ht : text (write s ++ ['\n']) = some (s, ['\n']) := text_write s (by decide) (by decide)
  rw [hw, List.cons_append] at ht ⊢
  rw [value.eq_def]
  dsimp only
  rw [if_pos hq, ht]
  rfl

theorem skipBlank_write (s : List Char) :
    skipBlank (' ' :: (write s ++ ['\n'])) = write s ++ ['\n'] := by
  obtain ⟨q, r, hw, hq⟩ := exists_write s
  rw [hw]
  rcases hq with rfl | rfl <;> rfl

theorem statement_line (s : List Char) : statement (line s) =
    some (.entry ⟨[], prefixKey⟩ (.string (.ofList s)), ['\n']) := by
  have hentry : entry (value (maxDepth - 1)) (line s) =
      some ((⟨[], prefixKey⟩, .string (.ofList s)), ['\n']) := by
    have hexpect (t : List Char) : expect '=' ('=' :: t) = some t := if_pos rfl
    have hblank : skipBlank ['\n'] = ['\n'] := rfl
    have hkey := key_line (write s ++ ['\n'])
    unfold entry line
    rw [hkey]
    dsimp only [Option.bind_eq_bind, Option.bind_some]
    rw [hexpect]
    dsimp only [Option.bind_some]
    rw [skipBlank_write, value_write]
    dsimp only [Option.bind_some]
    rw [hblank]
  have h₁ : "[[".toList.isPrefixOf (line s) = false := rfl
  have h₂ : "[".toList.isPrefixOf (line s) = false := rfl
  rw [statement, if_neg (by rw [h₁]; decide), if_neg (by rw [h₂]; decide), hentry]
  rfl

theorem statements_line (s : List Char) : statements (line s) =
    some [.entry ⟨[], prefixKey⟩ (.string (.ofList s))] := by
  obtain ⟨t, ht⟩ : ∃ t, line s = 'd' :: t := ⟨_, rfl⟩
  have hdone (n : Nat) : statementsWithin (n + 1) [] = some [] := rfl
  have hblank : skipBlank (line s) = line s := by rw [ht]; rfl
  have hline : lineEnd ['\n'] = some [] := rfl
  have hfirst : ¬ ((line s).head? = some '#' ∨ newlineLength (line s) ≠ 0) := by
    rw [ht]
    simp [newlineLength]
  have hlength : (line s).length = t.length + 1 := by rw [ht, List.length_cons]
  rw [statements, if_neg (by rw [ht]; simp), hlength, statementsWithin]
  dsimp only
  rw [hblank, if_neg (by rw [ht]; simp), if_neg hfirst, statement_line]
  simp only [Option.bind_eq_bind, Option.bind_some, hline, hdone]

theorem toList_render (v : String) : (render ⟨some v⟩).toList = line v.toList := by
  have hopen : prefixKey.toList ++ " = ".toList = "default_prefix = ".toList := rfl
  have hend : "\n".toList = ['\n'] := rfl
  have hw : (String.ofList (write v.toList)).toList = write v.toList := String.toList_ofList
  unfold render line
  dsimp only
  rw [String.toList_append, String.toList_append, String.toList_append, hopen, hend,
    hw, List.append_assoc]

theorem parse_render (d : Defaults) : parse d.render = .ok d := by
  obtain ⟨_ | v⟩ := d
  · rfl
  · have hs : statements (render ⟨some v⟩).toList =
        some [.entry ⟨[], prefixKey⟩ (.string v)] := by
      rw [toList_render, statements_line, String.ofList_toList]
    have ht : Toml.parse (render ⟨some v⟩) = some [(prefixKey, .string v)] := by
      rw [Toml.parse, hs]
      rfl
    rw [parse, ht]
    rfl

end StagedInstall.Defaults
