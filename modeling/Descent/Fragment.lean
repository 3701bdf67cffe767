import Descent.Text.Bytes

/-!
# Fragments of text

Values that stand for a piece of text, so that the values of several parses can be joined.
-/

namespace Descent

/-- Values that have a text. -/
class Fragment (α : Type) where
  text : α → Text

namespace Fragment

variable {α : Type}

instance : Fragment Char := ⟨fun c => [c]⟩

instance : Fragment String := ⟨String.toList⟩

instance [Fragment α] : Fragment (List α) := ⟨fun vs => vs.flatMap text⟩

instance [Fragment α] : Fragment (Option α) := ⟨fun v => v.elim [] text⟩

/-- Adds the text of a value to the end of a text. -/
def pushTo [Fragment α] (buffer : Text) (v : α) : Text := buffer ++ text v

@[simp]
theorem text_char (c : Char) : text c = [c] := rfl

@[simp]
theorem text_string (s : String) : text s = s.toList := rfl

theorem text_list [Fragment α] (vs : List α) : text vs = vs.flatMap text := rfl

/-- A text is its own text. -/
@[simp]
theorem text_text (t : Text) : text t = t := by
  rw [text_list]
  induction t with
  | nil => rfl
  | cons c t ih => simp [ih]

end Fragment

end Descent
