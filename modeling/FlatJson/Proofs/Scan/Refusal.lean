import FlatJson.Proofs.Scan.Lexeme

/-!
# Refused lexemes

A reader refuses a text for one of two reasons. The text may have ended too
early, and then a longer one is read. Or some byte rules the text out: then every
longer text is refused with the same fault, and what stands before the place of
the fault is the front of a text that is read. `Refused` says this of a fault, for
a reader and the texts that it is there to read, and each reader of a lexeme has a
lemma `…_error` that proves it.

A reader that leaves something of a text has seen all that it needs, so that it
takes the same from every longer text (`…_extend`).
-/

namespace FlatJson

open Ascii

/-- The fault asks for more text: the document has ended, in a string or
elsewhere. -/
def ReadCause.WantsMore (cause : ReadCause) : Prop :=
  cause.message = "Unexpected end of input" ∨ cause.message = "Unterminated string"

instance (cause : ReadCause) : Decidable cause.WantsMore :=
  inferInstanceAs (Decidable (_ ∨ _))

theorem ReadCause.wantsMore_endOfInput : endOfInput.WantsMore := .inl rfl

theorem ReadCause.wantsMore_unterminatedString : unterminatedString.WantsMore := .inr rfl

namespace Scan

open Grammar ReadCause

/-- A text is the front of one of the texts of a class. -/
def IsFront (class_ : Bytes → Prop) (bs : Bytes) : Prop :=
  ∃ more, class_ (bs ++ more)

theorem isFront_self {class_ : Bytes → Prop} {bs : Bytes} (h : class_ bs) : IsFront class_ bs :=
  ⟨[], by rwa [List.append_nil]⟩

/-- A front of a front is a front. -/
theorem IsFront.left {class_ : Bytes → Prop} {bs cs : Bytes} (h : IsFront class_ (bs ++ cs)) :
    IsFront class_ bs := by
  obtain ⟨more, hmore⟩ := h
  exact ⟨cs ++ more, by rwa [← List.append_assoc]⟩

/-- What the fault `stop` says of the text `bs`, which stands at the offset `start`
and is refused by `read`, a reader of the texts of a class. -/
def Refused {α : Type} (class_ : Bytes → Prop) (read : Bytes → Except Stop α) (start : Nat)
    (bs : Bytes) (stop : Stop) : Prop :=
  (stop.cause.WantsMore ∧ IsFront class_ bs) ∨
    (¬stop.cause.WantsMore ∧ (∀ more, read (bs ++ more) = .error stop) ∧
      ∃ front back, bs = front ++ back ∧ stop.offset = start + front.length ∧
        IsFront class_ front)

variable {α β : Type} {class_ larger : Bytes → Prop} {start : Nat} {bs : Bytes} {stop : Stop}

theorem refused_wantsMore {read : Bytes → Except Stop α} (more : Bytes)
    (hcause : stop.cause.WantsMore) (h : class_ (bs ++ more)) :
    Refused class_ read start bs stop :=
  .inl ⟨hcause, more, h⟩

/-- The fault lies where the text begins. -/
theorem refused_at_once {read : Bytes → Except Stop α} {text : Bytes}
    (hcause : ¬stop.cause.WantsMore) (hoffset : stop.offset = start)
    (hread : ∀ more, read (bs ++ more) = .error stop) (h : class_ text) :
    Refused class_ read start bs stop :=
  .inr ⟨hcause, hread, [], bs, rfl, hoffset, text, h⟩

/-- What is refused behind some bytes is refused together with them. -/
theorem Refused.prepend {read : Bytes → Except Stop α} {whole : Bytes → Except Stop β}
    (taken : Bytes) (h : Refused class_ read (start + taken.length) bs stop)
    (hclass : ∀ text, class_ text → IsFront larger (taken ++ text))
    (hread : ∀ more, read (bs ++ more) = .error stop →
      whole (taken ++ (bs ++ more)) = .error stop) :
    Refused larger whole start (taken ++ bs) stop := by
  have hfront {front : Bytes} (hf : IsFront class_ front) : IsFront larger (taken ++ front) := by
    obtain ⟨more, hmore⟩ := hf
    obtain ⟨last, hlast⟩ := hclass _ hmore
    exact ⟨more ++ last, by simpa using hlast⟩
  rcases h with ⟨hcause, hbs⟩ | ⟨hcause, hall, front, back, rfl, hoffset, hf⟩
  · exact .inl ⟨hcause, hfront hbs⟩
  · refine .inr ⟨hcause, fun more => ?_, taken ++ front, back, by simp, ?_, hfront hf⟩
    · rw [List.append_assoc]
      exact hread more (hall more)
    · rw [hoffset, List.length_append, Nat.add_assoc]

theorem Refused.imp {read : Bytes → Except Stop α} {whole : Bytes → Except Stop β}
    (h : Refused class_ read start bs stop) (hclass : ∀ text, class_ text → IsFront larger text)
    (hread : ∀ more, read (bs ++ more) = .error stop → whole (bs ++ more) = .error stop) :
    Refused larger whole start bs stop :=
  Refused.prepend [] h hclass hread

/-! Strings. -/

/-- What stands behind the opening quote of a string, up to its closing quote. -/
def ClosesString (text : Bytes) : Prop :=
  ∃ s : Quoted, quote :: text = s.text

theorem closesString {raw : Bytes} (h : Inside raw) : ClosesString (raw ++ [quote]) :=
  ⟨⟨raw, h⟩, rfl⟩

theorem ClosesString.plain {b : UInt8} {text : Bytes} (h : ClosesString text)
    (hc : isControl b = false) (hq : b ≠ quote) (hb : b ≠ backslash) :
    ClosesString (b :: text) := by
  obtain ⟨⟨raw, hraw⟩, htext⟩ := h
  obtain rfl : text = raw ++ [quote] := (List.cons.inj htext).2
  exact closesString (.plain hc hq hb hraw)

theorem ClosesString.escaped {text : Bytes} (b : UInt8) (h : ClosesString text) :
    ClosesString (backslash :: b :: text) := by
  obtain ⟨⟨raw, hraw⟩, htext⟩ := h
  obtain rfl : text = raw ++ [quote] := (List.cons.inj htext).2
  exact closesString (.escaped b hraw)

theorem closeString_control (opening offset : Nat) {b : UInt8} (rest : Bytes)
    (hc : isControl b = true) :
    closeString opening offset (b :: rest) = .error ⟨.controlCharacter, offset, offset + 1⟩ := by
  have hne : ∀ c : UInt8, isControl c = false → (b == c) = false := by
    intro c hfalse
    rw [beq_eq_false_iff_ne]
    rintro rfl
    rw [hc] at hfalse
    cases hfalse
  rw [closeString.eq_def]
  simp [hne quote (by decide), hne backslash (by decide), hc]

theorem closeString_error {opening offset : Nat} {bs : Bytes} {stop : Stop}
    (h : closeString opening offset bs = .error stop) :
    Refused ClosesString (closeString opening offset) offset bs stop := by
  fun_induction closeString opening offset bs with
  | case1 =>
      cases h
      exact refused_wantsMore [quote] wantsMore_unterminatedString (closesString .nil)
  | case2 => cases h
  | case3 offset b hq hb =>
      cases h
      rw [beq_iff_eq] at hb
      subst hb
      exact refused_wantsMore [zero, quote] wantsMore_unterminatedString
        (closesString (.escaped zero .nil))
  | case4 offset b hq hb c rest ih =>
      rw [beq_iff_eq] at hb
      subst hb
      refine Refused.prepend [backslash, c] (ih h)
        (fun _ htext => isFront_self (htext.escaped c)) ?_
      intro more hmore
      exact (closeString_escaped _ _ _ _).trans hmore
  | case5 offset b rest hq hb hc =>
      cases h
      refine refused_at_once (by decide : ¬ReadCause.controlCharacter.WantsMore) rfl ?_
        (closesString .nil)
      exact fun more => closeString_control opening offset _ hc
  | case6 offset b rest hq hb hc ih =>
      rw [beq_iff_eq] at hq hb
      rw [Bool.not_eq_true] at hc
      refine Refused.prepend [b] (ih h)
        (fun _ htext => isFront_self (htext.plain hc hq hb)) ?_
      intro more hmore
      exact (closeString_plain _ _ _ hc hq hb).trans hmore

theorem string_error {opening : Nat} {bs : Bytes} {stop : Stop}
    (h : string opening bs = .error stop) :
    Refused ClosesString (string opening) (opening + 1) bs stop := by
  unfold string at h
  split at h
  · cases h
  · next hclose =>
      cases h
      refine (closeString_error hclose).imp (fun _ => isFront_self) ?_
      intro more hmore
      rw [string, hmore]

theorem string_extend {opening : Nat} {bs : Bytes} {token : Token} {after : Place}
    (h : string opening bs = .ok (token, after)) (more : Bytes) :
    string opening (bs ++ more) = .ok (token, ⟨after.offset, after.rest ++ more⟩) := by
  obtain ⟨s, htext, rfl, hoffset⟩ := string_ok h
  obtain rfl : bs = s.raw ++ quote :: after.rest := by
    simpa [Quoted.text] using htext
  rw [List.append_assoc, List.cons_append, string_append, hoffset]

/-! Words. -/

theorem word_error {start offset : Nat} {expected bs : Bytes} {stop : Stop}
    (h : word start offset expected bs = .error stop) :
    (stop.cause.WantsMore ∧ ∃ more, bs ++ more = expected) ∨
      (¬stop.cause.WantsMore ∧ stop.offset = start ∧
        ∀ more, word start offset expected (bs ++ more) = .error stop) := by
  fun_induction word start offset expected bs with
  | case1 => cases h
  | case2 =>
      cases h
      exact .inl ⟨wantsMore_endOfInput, _, rfl⟩
  | case3 offset w expected b rest hb ih =>
      rcases ih h with ⟨hcause, more, rfl⟩ | ⟨hcause, hoffset, hmore⟩
      · rw [beq_iff_eq] at hb
        exact .inl ⟨hcause, more, congrArg (· :: _) hb⟩
      · refine .inr ⟨hcause, hoffset, fun more => ?_⟩
        rw [List.cons_append, word, if_pos hb]
        exact hmore more
  | case4 offset w expected b rest hb =>
      cases h
      refine .inr ⟨(by decide : ¬ReadCause.invalidLiteral.WantsMore), rfl, fun more => ?_⟩
      rw [List.cons_append, word, if_neg hb]

theorem literal_error {w : Word} {offset : Nat} {bs : Bytes} {stop : Stop}
    (h : literal w.kind w.text ⟨offset, bs⟩ = .error stop) :
    Refused (· = w.text) (fun bs => literal w.kind w.text ⟨offset, bs⟩) offset bs stop := by
  unfold literal at h
  split at h
  · cases h
  · next hword =>
      cases h
      rcases word_error hword with ⟨hcause, more, hmore⟩ | ⟨hcause, hoffset, hall⟩
      · exact refused_wantsMore more hcause hmore
      · refine refused_at_once hcause hoffset (fun more => ?_) rfl
        simp only [literal, hall]

theorem literal_extend {w : Word} {offset : Nat} {bs : Bytes} {token : Token} {after : Place}
    (h : literal w.kind w.text ⟨offset, bs⟩ = .ok (token, after)) (more : Bytes) :
    literal w.kind w.text ⟨offset, bs ++ more⟩ =
      .ok (token, ⟨after.offset, after.rest ++ more⟩) := by
  obtain ⟨rfl, rfl, hoffset⟩ := literal_ok w h
  rw [List.append_assoc, literal_append, hoffset]

/-! Numbers. -/

theorem looksHexadecimal_of_append {bs : Bytes} (h : Literal.looksHexadecimal bs = true)
    (more : Bytes) : Literal.looksHexadecimal (bs ++ more) = true := by
  rcases hm : Literal.scanMinus bs with ⟨negative, rest⟩
  unfold Literal.looksHexadecimal at h ⊢
  rw [hm] at h
  split at h
  · next b c left hrest =>
      obtain rfl : rest = b :: c :: left := hrest
      rw [Literal.scanMinus_extend hm (List.cons_ne_nil _ _)]
      exact h
  · cases h

/-- Whether a text looks like a hexadecimal number is settled by its literal and the
byte behind it. -/
theorem looksHexadecimal_extend {l : Literal} {bs rest : Bytes}
    (h : Literal.scan bs = .ok (l, rest)) (hne : rest ≠ []) (more : Bytes) :
    Literal.looksHexadecimal (bs ++ more) = Literal.looksHexadecimal bs := by
  obtain ⟨r₁, r₂, r₃, hm, hd, hf, he⟩ := Literal.scan_eq_ok.mp h
  obtain ⟨⟨d, ds, hwhole, hdigit⟩, rfl, -⟩ :=
    (Literal.scanDigits_ok hd).imp_left IsDigits.exists_cons
  have hr₂ : r₂ ≠ [] := by
    obtain ⟨rfl, -, -⟩ := Literal.scanFraction_ok hf
    obtain ⟨rfl, -, -⟩ := Literal.scanExponent_ok he
    simp [hne]
  have hextend := Literal.scanMinus_extend hm (by simp [hr₂]) more
  obtain ⟨c, cs, hc⟩ : ∃ c cs, ds ++ r₂ = c :: cs := List.exists_cons_of_ne_nil (by simp [hr₂])
  unfold Literal.looksHexadecimal
  rw [hextend, hm]
  simp only [hwhole, List.cons_append, hc]

theorem number_error {offset : Nat} {bs : Bytes} {stop : Stop}
    (h : number ⟨offset, bs⟩ = .error stop) :
    Refused (fun text => ∃ n : Numeral, text = n.literal.text)
      (fun bs => number ⟨offset, bs⟩) offset bs stop := by
  have hzero : ∃ n : Numeral, [zero] = n.literal.text :=
    ⟨⟨⟨false, [zero], none, none⟩, isDigits_zero, by simp, by simp, by simp, by simp⟩, rfl⟩
  unfold number at h
  simp only at h
  split at h
  · next hscan =>
      cases h
      obtain ⟨l, hwell, htext⟩ := Literal.exists_literal_of_scan_error hscan
      exact refused_wantsMore [zero] wantsMore_endOfInput ⟨⟨l, hwell⟩, htext.symm⟩
  · next b left hscan =>
      cases h
      refine refused_at_once (by decide : ¬ReadCause.invalidNumber.WantsMore) rfl
        (fun more => ?_) hzero
      simp only [number, Literal.scan_error_extend hscan (List.cons_ne_nil _ _),
        List.cons_append]
  · next l rest hscan =>
      split at h
      · next hhex =>
          cases h
          refine refused_at_once (by decide : ¬ReadCause.hexadecimal.WantsMore) rfl
            (fun more => ?_) hzero
          obtain ⟨hwell, htext, -⟩ := Literal.scan_eq_ok_iff.mp hscan
          have hne : rest ≠ [] := by
            rintro rfl
            have hfalse := looksHexadecimal_append ⟨l, hwell⟩ delimited_nil
            rw [← htext, hhex] at hfalse
            cases hfalse
          simp only [number, Literal.scan_extend hscan hne,
            looksHexadecimal_of_append hhex, if_true]
      · cases h

theorem number_extend {offset : Nat} {bs : Bytes} {token : Token} {after : Place}
    (h : number ⟨offset, bs⟩ = .ok (token, after)) (hne : after.rest ≠ []) (more : Bytes) :
    number ⟨offset, bs ++ more⟩ = .ok (token, ⟨after.offset, after.rest ++ more⟩) := by
  unfold number at h
  simp only at h
  split at h
  · cases h
  · cases h
  · next l rest hscan =>
      split at h
      · cases h
      · next hhex =>
          cases h
          simp only [number, Literal.scan_extend hscan hne, looksHexadecimal_extend hscan hne,
            if_neg hhex]

/-! Every lexeme. -/

theorem scalar_error {b : UInt8} {offset : Nat} {rest : Bytes} {stop : Stop}
    (h : scalar b ⟨offset, b :: rest⟩ = .error stop) :
    Refused (fun text => ∃ x : Lexeme, text = x.text) (fun bs => scalar b ⟨offset, bs⟩) offset
      (b :: rest) stop := by
  rcases scalar_cases b with ⟨rfl, hstring⟩ | ⟨w, hword⟩ | hnumber | hnone
  · rw [hstring] at h
    refine Refused.prepend [quote] (string_error h) (fun text htext => ?_)
      fun more => (hstring offset (quote :: (rest ++ more))).trans
    rcases htext with ⟨s, hs⟩
    exact isFront_self ⟨.string s, hs⟩
  · rw [hword] at h
    refine (literal_error h).imp (fun text htext => ?_) fun _ => (hword _ _).trans
    exact isFront_self ⟨.word w, htext⟩
  · rw [hnumber] at h
    refine (number_error h).imp (fun text htext => ?_) fun _ => (hnumber _ _).trans
    rcases htext with ⟨n, hn⟩
    exact isFront_self ⟨.number n, hn⟩
  · rw [hnone] at h
    cases h
    exact refused_at_once (by decide : ¬ReadCause.unexpectedCharacter.WantsMore) rfl
      (fun more => hnone _ _) ⟨.word .null, rfl⟩

theorem scalar_extend {b : UInt8} {offset : Nat} {bs : Bytes} {token : Token} {after : Place}
    (h : scalar b ⟨offset, b :: bs⟩ = .ok (token, after)) (hne : after.rest ≠ []) (more : Bytes) :
    scalar b ⟨offset, b :: (bs ++ more)⟩ = .ok (token, ⟨after.offset, after.rest ++ more⟩) := by
  rcases scalar_cases b with ⟨rfl, hstring⟩ | ⟨w, hword⟩ | hnumber | hnone
  · rw [hstring] at h ⊢
    exact string_extend h more
  · rw [hword] at h ⊢
    exact literal_extend h more
  · rw [hnumber] at h ⊢
    exact number_extend h hne more
  · rw [hnone] at h
    cases h

end Scan

end FlatJson
