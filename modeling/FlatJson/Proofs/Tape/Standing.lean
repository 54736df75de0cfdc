import FlatJson.Proofs.Tape.Read

/-!
# Where the tokens of a tape stand

A token of a tape stands in the document for a lexeme or for a container that lies
there (`Stands`). So its span lies within the document, a number token spans a
number literal, and a string token spans what stands between two quotes.
-/

namespace FlatJson

open Ascii

namespace Grammar

/-- A token stands in a text for a lexeme or for a container that lies there. -/
inductive Stands (text : Bytes) : Token → Prop
  | lexeme {x : Lexeme} {start : Nat} : Lies text start x.text → Stands text (x.token start)
  | container {bs : Bytes} {start : Nat} (isObject : Bool) (count : Nat) : Lies text start bs →
      Stands text ⟨containerKind isObject, start, start + bs.length, count⟩

namespace Stands

variable {text : Bytes} {t : Token}

/-- The span of a token lies in the text, from its start to its stop. -/
theorem exists_lies (h : Stands text t) :
    ∃ bs, Lies text t.start bs ∧ t.stop = t.start + bs.length := by
  cases h with
  | container isObject count h => exact ⟨_, h, rfl⟩
  | @lexeme x start h =>
      cases x with
      | word w => exact ⟨_, h, rfl⟩
      | number n => exact ⟨_, h, rfl⟩
      | string s => exact ⟨_, h.tail.left, rfl⟩

theorem start_le_stop (h : Stands text t) : t.start ≤ t.stop := by
  obtain ⟨bs, -, hstop⟩ := h.exists_lies
  omega

theorem stop_le_length (h : Stands text t) : t.stop ≤ text.length := by
  obtain ⟨bs, hlies, hstop⟩ := h.exists_lies
  exact hstop ▸ hlies.le_length

/-- A number token stands for a number literal. -/
theorem exists_numeral (h : Stands text t) (hkind : t.kind = .number) :
    ∃ (n : Numeral) (start : Nat), t = (Lexeme.number n).token start ∧
      Lies text start n.literal.text := by
  cases h with
  | container isObject count h => cases isObject <;> cases hkind
  | @lexeme x start h =>
      cases x with
      | word w => cases w <;> cases hkind
      | number n => exact ⟨n, start, rfl, h⟩
      | string s => cases hkind

/-- A string token stands for what is between two quotes. -/
theorem exists_quoted (h : Stands text t) (hkind : t.kind = .string) :
    ∃ (q : Quoted) (start : Nat), t = (Lexeme.string q).token start ∧ Lies text start q.text := by
  cases h with
  | container isObject count h => cases isObject <;> cases hkind
  | @lexeme x start h =>
      cases x with
      | word w => cases w <;> cases hkind
      | number n => cases hkind
      | string q => exact ⟨q, start, rfl, h⟩

end Stands

/-- A property that the token of a lexeme has wherever the lexeme lies in a text, and the
token of a container wherever the container does. -/
structure TokenProperty (text : Bytes) (P : Token → Prop) : Prop where
  lexeme {x : Lexeme} {start : Nat} : Lies text start x.text → P (x.token start)
  container (isObject : Bool) {inner : Bytes} {start : Nat} (count : Nat) :
    Lies text start (opener isObject :: (inner ++ [closer isObject])) →
      P ⟨containerKind isObject, start, start + inner.length + 2, count⟩

section Listing

variable {text : Bytes} {P : Token → Prop}

theorem Label.forall_tokens (hP : TokenProperty text P) {start : Nat} {isObject : Bool}
    (label : Label isObject) (h : Lies text start label.text) :
    ∀ t ∈ label.tokens start, P t := by
  intro t ht
  cases label with
  | element => cases ht
  | name before s after =>
      obtain rfl := List.mem_singleton.mp ht
      exact hP.lexeme (x := .string s) h.left.left.right

mutual

/-- All tokens of a tree have such a property where the tree lies. -/
theorem Tree.forall_tokens (hP : TokenProperty text P) : ∀ (t : Tree) {start : Nat},
    Lies text start t.text → ∀ token ∈ t.tokens start, P token
  | .scalar x, start, h, token, htoken => by
      obtain rfl := List.mem_singleton.mp htoken
      exact hP.lexeme h
  | .empty isObject inside, start, h, token, htoken => by
      obtain rfl := List.mem_singleton.mp htoken
      exact hP.container isObject 0 h
  | .container isObject children, start, h, token, htoken => by
      rcases List.mem_cons.mp htoken with rfl | htoken
      · exact hP.container isObject children.size h
      · exact Children.forall_tokens hP children h.tail.left token htoken

theorem Children.forall_tokens (hP : TokenProperty text P) : ∀ {isObject : Bool}
    (children : Children isObject) {start : Nat}, Lies text start children.text →
    ∀ token ∈ children.tokens start, P token
  | _, .last label before t after, start, h, token, htoken => by
      obtain ⟨hlabel, ht⟩ := Children.lies_last h
      rcases List.mem_append.mp htoken with htoken | htoken
      · exact label.forall_tokens hP hlabel token htoken
      · exact Tree.forall_tokens hP t ht token htoken
  | _, .more label before t after others, start, h, token, htoken => by
      obtain ⟨hlabel, ht, hothers⟩ := Children.lies_more h
      rcases List.mem_append.mp htoken with htoken | htoken
      · rcases List.mem_append.mp htoken with htoken | htoken
        · exact label.forall_tokens hP hlabel token htoken
        · exact Tree.forall_tokens hP t ht token htoken
      · exact Children.forall_tokens hP others hothers token htoken

end

theorem tokenProperty_stands (text : Bytes) : TokenProperty text (Stands text) where
  lexeme h := .lexeme h
  container isObject inner start count h := by
    have hstop : start + inner.length + 2 =
        start + (opener isObject :: (inner ++ [closer isObject])).length := by
      simp only [List.length_cons, List.length_append, List.length_nil]
      omega
    rw [hstop]
    exact .container isObject count h

end Listing

end Grammar

open ByteReader LawfulReader Grammar

section Read

variable {ρ : Type} [ByteReader ρ] [LawfulReader ρ] {limits : Limits} {r : ρ} {tape : Tape}

/-- All tokens of a tape have such a property of the document that was read. -/
theorem Tape.forall_tokens_of_read {P : Token → Prop} (hP : TokenProperty (content r) P)
    (h : (Tape.read limits r).1 = .ok tape) : ∀ t ∈ tape.tokens, P t := by
  obtain ⟨d, htext, -, htokens⟩ := Scan.document_eq_ok_iff.mp (read_fst_eq_ok_iff.mp h)
  rw [htokens]
  exact d.tree.forall_tokens hP (d.lies_tree htext)

/-- Every token of a tape stands in the document that was read. -/
theorem Tape.stands_of_read (h : (Tape.read limits r).1 = .ok tape) :
    ∀ t ∈ tape.tokens, Stands (content r) t :=
  forall_tokens_of_read (tokenProperty_stands _) h

end Read

end FlatJson
