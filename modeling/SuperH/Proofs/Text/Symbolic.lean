import SuperH.Il.Text

/-!
# Symbolic expressions

* `SExpr` : words, quoted names, and operators with their arguments; `SExpr.text` : how they are written;
* `IsWord` : a text that is one word; `SExpr.Readable` : an expression of words only;
* `append_inj_of_delimited` : where a word ends is determined by what follows;
* `SExpr.text_inj` : a text is that of one readable expression only.
-/

namespace SuperH

/-! ## Words -/

/-- The character neither separates words nor encloses them. -/
def Plain (c : Char) : Prop := c ∉ [' ', '(', ')', '"']

instance (c : Char) : Decidable (Plain c) := inferInstanceAs (Decidable (c ∉ _))

/-- The text is one word. -/
def IsWord (w : String) : Prop := w.toList ≠ [] ∧ ∀ c ∈ w.toList, Plain c

-- the characters of the text are gone through, and not all characters that there are
instance (w : String) : Decidable (IsWord w) := @instDecidableAnd _ _ inferInstance (List.decidableBAll _ _)

/-- Two texts that go on with a character outside of their alphabet, or end, are equal if their continuations are. -/
theorem append_inj_of_delimited {p : Char → Prop} {w w' r r' : List Char} (hw : ∀ c ∈ w, p c) (hw' : ∀ c ∈ w', p c)
    (hr : ∀ c ∈ r.head?, ¬p c) (hr' : ∀ c ∈ r'.head?, ¬p c) (h : w ++ r = w' ++ r') : w = w' ∧ r = r' := by
  induction w generalizing w' with
  | nil =>
    cases w' with
    | nil => exact ⟨rfl, h⟩
    | cons c w' =>
      rw [List.nil_append, List.cons_append] at h
      exact absurd (hw' c List.mem_cons_self) (hr c (by rw [h]; rfl))
  | cons c w ih =>
    cases w' with
    | nil =>
      rw [List.nil_append, List.cons_append] at h
      exact absurd (hw c List.mem_cons_self) (hr' c (by rw [← h]; rfl))
    | cons c' w' =>
      obtain ⟨rfl, htail⟩ := List.cons.inj h
      obtain ⟨rfl, rfl⟩ := ih (fun c hc => hw c (List.mem_cons_of_mem _ hc)) (fun c hc => hw' c (List.mem_cons_of_mem _ hc)) htail
      exact ⟨rfl, rfl⟩

/-- A word does not begin with a character that separates words or encloses them. -/
theorem IsWord.append_ne {w : String} (h : IsWord w) {r s : List Char} {c : Char} (hc : ¬Plain c) : w.toList ++ r ≠ c :: s := by
  obtain ⟨hne, hplain⟩ := h
  obtain ⟨c', w', hw⟩ := List.ne_nil_iff_exists_cons.1 hne
  intro heq
  rw [hw, List.cons_append] at heq
  obtain ⟨rfl, -⟩ := List.cons.inj heq
  exact hc (hplain c' (hw ▸ List.mem_cons_self))

/-! ## Expressions -/

/-- A symbolic expression. -/
inductive SExpr (α : Type) where
  | word (w : String)
  | quoted (name : String)
  /-- an operator and its arguments, in parentheses -/
  | form (operator : α) (arguments : List (SExpr α))

namespace SExpr

variable {α : Type}

theorem form_inj₁ {o o' : α} {a a' : SExpr α} (h : form o [a] = form o' [a']) : o = o' ∧ a = a' := by
  simpa using h

theorem form_inj₂ {o o' : α} {a a' b b' : SExpr α} (h : form o [a, b] = form o' [a', b']) : o = o' ∧ a = a' ∧ b = b' := by
  simpa using h

theorem form_inj₃ {o o' : α} {a a' b b' c c' : SExpr α} (h : form o [a, b, c] = form o' [a', b', c']) :
    o = o' ∧ a = a' ∧ b = b' ∧ c = c' := by
  simpa using h

mutual

def text (symbol : α → String) : SExpr α → String
  | word w => w
  | quoted name => "\"" ++ name ++ "\""
  | form o args => textForm (symbol o) (texts symbol args)

def texts (symbol : α → String) : List (SExpr α) → List String
  | [] => []
  | e :: es => e.text symbol :: texts symbol es

end

mutual

/-- Words are words, and a quoted name has no quote. -/
def Readable : SExpr α → Prop
  | word w => IsWord w
  | quoted name => '"' ∉ name.toList
  | form _ args => AllReadable args

def AllReadable : List (SExpr α) → Prop
  | [] => True
  | e :: es => e.Readable ∧ AllReadable es

end

/-! ## Reading a text -/

/-- What follows an expression: another argument, the end of the arguments, or nothing. -/
def Follows (r : List Char) : Prop := ∀ c ∈ r.head?, c = ' ' ∨ c = ')'

theorem Follows.not_plain {r : List Char} (h : Follows r) : ∀ c ∈ r.head?, ¬Plain c := by
  intro c hc
  rcases h c hc with rfl | rfl
  · decide
  · decide

theorem follows_nil : Follows [] := nofun

/-- The arguments, each after a blank, up to the closing parenthesis. -/
def argumentChars (symbol : α → String) (es : List (SExpr α)) : List Char :=
  (texts symbol es).flatMap (fun t => ' ' :: t.toList) ++ [')']

variable {symbol : α → String}

theorem toList_quoted (name : String) (r : List Char) :
    ((quoted name : SExpr α).text symbol).toList ++ r = '"' :: (name.toList ++ '"' :: r) := by
  simp [text]

theorem toList_form (o : α) (args : List (SExpr α)) (r : List Char) :
    ((form o args).text symbol).toList ++ r = '(' :: ((symbol o).toList ++ (argumentChars symbol args ++ r)) := by
  simp [text, textForm, argumentChars, List.flatMap_map]

theorem argumentChars_nil (r : List Char) : argumentChars symbol [] ++ r = ')' :: r := rfl

theorem argumentChars_cons (e : SExpr α) (es : List (SExpr α)) (r : List Char) :
    argumentChars symbol (e :: es) ++ r = ' ' :: ((e.text symbol).toList ++ (argumentChars symbol es ++ r)) := by
  simp [argumentChars, texts]

theorem follows_argumentChars (es : List (SExpr α)) (r : List Char) : Follows (argumentChars symbol es ++ r) := by
  cases es with
  | nil =>
    rw [argumentChars_nil]
    exact fun c hc => .inr (Option.some.inj hc).symm
  | cons e es =>
    rw [argumentChars_cons]
    exact fun c hc => .inl (Option.some.inj hc).symm

mutual

/-- Where the text of an expression ends, and what the expression is, do not depend on what follows. -/
theorem text_append_inj (hsymbol : Function.Injective symbol) (hword : ∀ o, IsWord (symbol o)) :
    ∀ {e e' : SExpr α} {r r' : List Char}, e.Readable → e'.Readable → Follows r → Follows r' →
      (e.text symbol).toList ++ r = (e'.text symbol).toList ++ r' → e = e' ∧ r = r'
  | word w, e', r, r', he, he', hr, hr', h => by
    cases e' with
    | word w' =>
      obtain ⟨hw, rfl⟩ := append_inj_of_delimited he.2 he'.2 hr.not_plain hr'.not_plain h
      rw [String.toList_inj.1 hw]
      exact ⟨rfl, rfl⟩
    | quoted name =>
      rw [toList_quoted] at h
      exact absurd h (IsWord.append_ne he (by decide))
    | form o args =>
      rw [toList_form] at h
      exact absurd h (IsWord.append_ne he (by decide))
  | quoted name, e', r, r', he, he', hr, hr', h => by
    rw [toList_quoted] at h
    cases e' with
    | word w' => exact absurd h.symm (IsWord.append_ne he' (by decide))
    | quoted name' =>
      rw [toList_quoted] at h
      have hend (s : List Char) : ∀ c ∈ ('"' :: s).head?, ¬c ≠ '"' := fun c hc hne => hne (Option.some.inj hc).symm
      have hinside {n : String} (hn : '"' ∉ n.toList) : ∀ c ∈ n.toList, c ≠ '"' := fun c hc hq => hn (hq ▸ hc)
      obtain ⟨hname, hrest⟩ :=
        append_inj_of_delimited (hinside he) (hinside he') (hend r) (hend r') (List.cons.inj h).2
      rw [String.toList_inj.1 hname]
      exact ⟨rfl, (List.cons.inj hrest).2⟩
    | form o args =>
      rw [toList_form] at h
      exact absurd (List.cons.inj h).1 (by decide)
  | form o args, e', r, r', he, he', hr, hr', h => by
    rw [toList_form] at h
    cases e' with
    | word w' => exact absurd h.symm (IsWord.append_ne he' (by decide))
    | quoted name' =>
      rw [toList_quoted] at h
      exact absurd (List.cons.inj h).1 (by decide)
    | form o' args' =>
      rw [toList_form] at h
      obtain ⟨ho, hargs⟩ := append_inj_of_delimited (hword o).2 (hword o').2 (follows_argumentChars args r).not_plain
        (follows_argumentChars args' r').not_plain (List.cons.inj h).2
      obtain rfl := hsymbol (String.toList_inj.1 ho)
      obtain ⟨rfl, rfl⟩ := arguments_append_inj hsymbol hword he he' hargs
      exact ⟨rfl, rfl⟩

theorem arguments_append_inj (hsymbol : Function.Injective symbol) (hword : ∀ o, IsWord (symbol o)) :
    ∀ {es es' : List (SExpr α)} {r r' : List Char}, AllReadable es → AllReadable es' →
      argumentChars symbol es ++ r = argumentChars symbol es' ++ r' → es = es' ∧ r = r'
  | [], es', r, r', _, _, h => by
    rw [argumentChars_nil] at h
    cases es' with
    | nil => exact ⟨rfl, (List.cons.inj h).2⟩
    | cons e' es' =>
      rw [argumentChars_cons] at h
      exact absurd (List.cons.inj h).1 (by decide)
  | e :: es, es', r, r', hes, hes', h => by
    rw [argumentChars_cons] at h
    cases es' with
    | nil => exact absurd (List.cons.inj h).1 (by decide)
    | cons e' es' =>
      rw [argumentChars_cons] at h
      obtain ⟨rfl, hrest⟩ := text_append_inj hsymbol hword hes.1 hes'.1 (follows_argumentChars es r)
        (follows_argumentChars es' r') (List.cons.inj h).2
      obtain ⟨rfl, rfl⟩ := arguments_append_inj hsymbol hword hes.2 hes'.2 hrest
      exact ⟨rfl, rfl⟩

end

theorem text_inj (hsymbol : Function.Injective symbol) (hword : ∀ o, IsWord (symbol o)) {e e' : SExpr α}
    (he : e.Readable) (he' : e'.Readable) (h : e.text symbol = e'.text symbol) : e = e' := by
  have hchars : (e.text symbol).toList ++ [] = (e'.text symbol).toList ++ [] := by rw [h]
  exact (text_append_inj hsymbol hword he he' follows_nil follows_nil hchars).1

end SExpr
end SuperH
