import XamlFormat.Text.Basic

/-! Line endings. Documents are processed with a line feed at the end of each line and written with
the line ending that the settings ask for. -/
namespace XamlFormat
namespace Text

/-- Writes `\r\n` and a lone `\r` as `\n`. -/
def unifyLineEnds : Chars → Chars
  | [] => []
  | '\r' :: '\n' :: cs => '\n' :: unifyLineEnds cs
  | c :: cs => (if c = '\r' then '\n' else c) :: unifyLineEnds cs

def withLineEnds (newLine : Chars) : Chars → Chars
  | [] => []
  | c :: cs => (if c = '\n' then newLine else [c]) ++ withLineEnds newLine cs

theorem withLineEnds_append (newLine a b : Chars) :
    withLineEnds newLine (a ++ b) = withLineEnds newLine a ++ withLineEnds newLine b := by
  induction a with
  | nil => rfl
  | cons c cs ih => simp [withLineEnds, ih]

end Text
end XamlFormat
