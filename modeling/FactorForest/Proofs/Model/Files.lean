import FactorForest.Model.Text
import FactorForest.Proofs.Text.Lines
import FactorForest.Proofs.Text.Utf8

set_option autoImplicit false

namespace FactorForest.Model

open Text

/-- A text counts by its lines: which breaks are between them makes no difference. -/
theorem readText_congr {cs ds : List Char} (h : lines cs = lines ds) (defaultArity : Int) :
    readText cs defaultArity = readText ds defaultArity := by
  rw [readText, readText, h]

theorem readBytes_of_decode {bytes : List UInt8} {cs : List Char}
    (h : Utf8.decode bytes = .ok cs) (defaultArity : Int) :
    readBytes bytes defaultArity = readText cs defaultArity := by
  rw [readBytes, h]
  exact readText_congr (lines_foldReturns cs) defaultArity

/-- A file is read as its text is, whatever its line ends are: with the same warnings up to where
the reading ends, and with the same model or the same fault. So the two parsers agree. Every text
can be in a file. -/
theorem parseFile_eq_parse (defaultArity : Int) :
    (∀ bytes cs, Utf8.decode bytes = .ok cs →
        readBytes bytes defaultArity = readText cs defaultArity ∧
          parseFile bytes defaultArity = parse cs defaultArity) ∧
      ∀ text : String,
        readBytes (Utf8.encode text) defaultArity = readText text.toList defaultArity ∧
          parseFile (Utf8.encode text) defaultArity = parse text.toList defaultArity := by
  have hread : ∀ bytes cs, Utf8.decode bytes = .ok cs →
      readBytes bytes defaultArity = readText cs defaultArity ∧
        parseFile bytes defaultArity = parse cs defaultArity := by
    intro bytes cs h
    have hsame := readBytes_of_decode h defaultArity
    exact ⟨hsame, congrArg Reading.outcome hsame⟩
  exact ⟨hread, fun text => hread _ _ (Utf8.decode_encode text)⟩

/-- The return behind the second header ends its line, and the return with a line feed after it ends
a blank one: the warning is of the fifth line and the fault on the sixth. -/
example :
    let r := readText "variables:\rA\r\nfactors:\r\r\nA// 1 2 3\rA".toList 2
    r.warnings = [⟨5, 1⟩] ∧ r.result = .error (.line 6 .noSeparator) := by
  decide +kernel

end FactorForest.Model
