/-!
Message templates: a placeholder is a number in braces, and stands for the argument of that number.
-/

namespace ClassLift.Text

-- Replaces every occurrence of `pattern`, from left to right. The number says how many characters
-- still belong to the occurrence that was replaced last.
def replaceFrom (pattern replacement : List Char) : Nat → List Char → List Char
  | _, [] => []
  | skip + 1, _ :: s => replaceFrom pattern replacement skip s
  | 0, c :: s =>
    if pattern.isPrefixOf (c :: s) then
      replacement ++ replaceFrom pattern replacement (pattern.length - 1) s
    else
      c :: replaceFrom pattern replacement 0 s

def replaceAll (pattern replacement s : List Char) : List Char :=
  replaceFrom pattern replacement 0 s

def placeholder (i : Nat) : List Char :=
  '{' :: Nat.toDigits 10 i ++ ['}']

-- The arguments are put in one after the other, so a placeholder that an argument brings along is
-- filled by the arguments after it.
def fill (template : String) (args : List String) : String :=
  let insert s | (arg, i) => replaceAll (placeholder i) arg.toList s
  String.ofList (args.zipIdx.foldl insert template.toList)

/- Templates with one placeholder -/

section Replace

variable {c : Char} {rest replacement front back s t : List Char}

theorem replaceFrom_length (pattern : List Char) :
    replaceFrom pattern replacement s.length (s ++ t) = replaceFrom pattern replacement 0 t := by
  induction s
  case nil => rfl
  case cons ih => simpa [replaceFrom] using ih

-- Where the pattern cannot begin, nothing is replaced.
theorem replaceFrom_append (h : c ∉ front) :
    replaceFrom (c :: rest) replacement 0 (front ++ t) =
      front ++ replaceFrom (c :: rest) replacement 0 t := by
  induction front
  case nil => rfl
  case cons d front ih =>
    obtain ⟨hd, hf⟩ : c ≠ d ∧ c ∉ front := by simpa using h
    have other : (c :: rest).isPrefixOf (d :: (front ++ t)) = false := by
      simp [List.isPrefixOf, hd]
    rw [List.cons_append, replaceFrom, other, if_neg (by simp), ih hf]
    rfl

-- A text in which the pattern stands once gets the replacement in its place, whatever that is.
theorem replaceAll_once (hf : c ∉ front) (hb : c ∉ back) :
    replaceAll (c :: rest) replacement (front ++ (c :: rest) ++ back) = front ++ replacement ++ back := by
  have here : (c :: rest).isPrefixOf (c :: (rest ++ back)) := by simp [List.isPrefixOf]
  have last : replaceFrom (c :: rest) replacement 0 back = back := by
    simpa [replaceFrom] using replaceFrom_append (t := []) hb
  rw [replaceAll, List.append_assoc, replaceFrom_append hf, List.cons_append, replaceFrom, if_pos here,
    List.length_cons, Nat.add_sub_cancel, replaceFrom_length, last, List.append_assoc]

end Replace

-- A single argument stands for the placeholder as it is, with all braces that it has.
theorem fill_once {template front back arg : String}
    (h : template.toList = front.toList ++ placeholder 0 ++ back.toList)
    (hf : '{' ∉ front.toList) (hb : '{' ∉ back.toList) : fill template [arg] = front ++ arg ++ back := by
  have filled : replaceAll (placeholder 0) arg.toList template.toList =
      front.toList ++ arg.toList ++ back.toList := by
    rw [h]
    exact replaceAll_once hf hb
  have insert : fill template [arg] =
      String.ofList (replaceAll (placeholder 0) arg.toList template.toList) := rfl
  rw [insert, filled]
  simp [String.append_assoc]

end ClassLift.Text
