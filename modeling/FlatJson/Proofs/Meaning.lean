import FlatJson.Value
import FlatJson.Proofs.Text.Spelling

/-!
# What a document denotes

A derivation denotes a value if each of its lexemes does: a string denotes the
text that it spells, and a number the floating-point number that its literal is
rounded to, which has to be finite. An array denotes its elements and an object
its members, in the order in which they stand and with all the names there are.
A derivation with a string that spells nothing, or with a number that is rounded
to infinity, denotes no value.
-/

namespace FlatJson

namespace Grammar

/-- The value of a word. -/
def Word.value : Word → Value
  | .yes => .bool true
  | .no => .bool false
  | .null => .null

/-- What a lexeme denotes. -/
inductive Lexeme.Denotes : Lexeme → Value → Prop
  | word (w : Word) : Denotes (.word w) w.value
  | number {n : Numeral} : (n.literal.toBinary .binary64).isFinite = true →
      Denotes (.number n) (.number (n.literal.toBinary .binary64))
  | string {s : Quoted} {text : String} : Escape.Spells s.raw text.toList →
      Denotes (.string s) (.string text)

mutual

/-- What a tree denotes. -/
inductive Tree.Denotes : Tree → Value → Prop
  | scalar {x : Lexeme} {v : Value} : x.Denotes v → Tree.Denotes (.scalar x) v
  | emptyArray (inside : Blanks) : Tree.Denotes (.empty false inside) (.array [])
  | emptyObject (inside : Blanks) : Tree.Denotes (.empty true inside) (.object [])
  | array {children : Children false} {vs : List Value} : Children.Elements children vs →
      Tree.Denotes (.container false children) (.array vs)
  | object {children : Children true} {ms : List (String × Value)} :
      Children.Members children ms → Tree.Denotes (.container true children) (.object ms)

/-- The elements that the children of an array denote. -/
inductive Children.Elements : Children false → List Value → Prop
  | last {before after : Blanks} {t : Tree} {v : Value} : Tree.Denotes t v →
      Children.Elements (.last .element before t after) [v]
  | more {before after : Blanks} {t : Tree} {others : Children false} {v : Value}
      {vs : List Value} : Tree.Denotes t v → Children.Elements others vs →
      Children.Elements (.more .element before t after others) (v :: vs)

/-- The members that the children of an object denote. -/
inductive Children.Members : Children true → List (String × Value) → Prop
  | last {first second before after : Blanks} {s : Quoted} {t : Tree} {name : String}
      {v : Value} : Escape.Spells s.raw name.toList → Tree.Denotes t v →
      Children.Members (.last (.name first s second) before t after) [(name, v)]
  | more {first second before after : Blanks} {s : Quoted} {t : Tree} {others : Children true}
      {name : String} {v : Value} {ms : List (String × Value)} :
      Escape.Spells s.raw name.toList → Tree.Denotes t v → Children.Members others ms →
      Children.Members (.more (.name first s second) before t after others) ((name, v) :: ms)

end

/-! No derivation denotes more than one value. -/

theorem spells_unique {raw : Bytes} {s t : String} (hs : Escape.Spells raw s.toList)
    (ht : Escape.Spells raw t.toList) : s = t :=
  String.toList_inj.mp (hs.unique ht)

theorem Lexeme.Denotes.unique {x : Lexeme} {v w : Value} (hv : x.Denotes v) (hw : x.Denotes w) :
    v = w := by
  cases hv with
  | word => cases hw with | word => rfl
  | number => cases hw with | number => rfl
  | string hs => cases hw with | string ht => rw [spells_unique hs ht]

mutual

theorem Tree.Denotes.unique : ∀ {t : Tree} {v w : Value}, t.Denotes v → t.Denotes w → v = w
  | _, _, _, .scalar hv, .scalar hw => hv.unique hw
  | _, _, _, .emptyArray _, .emptyArray _ => rfl
  | _, _, _, .emptyObject _, .emptyObject _ => rfl
  | _, _, _, .array hv, .array hw => congrArg Value.array (hv.unique hw)
  | _, _, _, .object hv, .object hw => congrArg Value.object (hv.unique hw)

theorem Children.Elements.unique : ∀ {children : Children false} {vs ws : List Value},
    children.Elements vs → children.Elements ws → vs = ws
  | _, _, _, .last hv, .last hw => congrArg (fun v => [v]) (hv.unique hw)
  | _, _, _, .more hv hvs, .more hw hws => by rw [hv.unique hw, hvs.unique hws]

theorem Children.Members.unique : ∀ {children : Children true} {ms ns : List (String × Value)},
    children.Members ms → children.Members ns → ms = ns
  | _, _, _, .last hs hv, .last ht hw => by rw [spells_unique hs ht, hv.unique hw]
  | _, _, _, .more hs hv hms, .more ht hw hns => by
      rw [spells_unique hs ht, hv.unique hw, hms.unique hns]

end

end Grammar

end FlatJson
