/-
What the rules read is firm.

Every rule takes a piece out of the code that closes its brackets, strings and comments
(`firm_of_parse`); only white space, and the parts of statements that end in it, may run into
a comment that the end of the text cuts off.  An expression leads from one depth of brackets
to another, and so the expressions of the rules are checked part by part, as if by a type.
-/
import Pup.Lib.PegReads
import Pup.Parse.Lexer

namespace Pup.Parse

open Peg
open Peg.Expression (opt plus star lit sat)

/-- Whether what the rule reads is in the code also where the text ends behind it. -/
def strict : Rule → Bool
  | .unit | .eof | .comment_to_eol | .space | .theelse | .theensure | .therescue => false
  | _ => true

/-- What the rules read. -/
def Balanced : Readings Value := fun r _ x t =>
  if strict r then Firm x ∧ x ≠ []
  else match r with
    | .comment_to_eol => t ≠ [] → ∃ y r, x = '#' :: y ∧ '\n' ∉ y ∧ t = '\n' :: r
    | .space | .theelse | .theensure | .therescue => t ≠ [] → Firm x
    | _ => True

/-! ### Firm expressions -/

/-- What the expression reads is firm, unless the text ends behind it. -/
def Loosely {α : Type} (e : Exp α) : Prop :=
  ∀ a x t, e.Reads grammar Balanced a x t → t ≠ [] → Firm x

def Firmly {α : Type} (e : Exp α) : Prop := ∀ a x t, e.Reads grammar Balanced a x t → Firm x

/-- And it is something. -/
def Solidly {α : Type} (e : Exp α) : Prop :=
  ∀ a x t, e.Reads grammar Balanced a x t → Firm x ∧ x ≠ []

section Judgements

variable {α β : Type}

theorem Solidly.firmly {e : Exp α} (h : Solidly e) : Firmly e := fun a x t hx => (h a x t hx).1

theorem Firmly.loosely {e : Exp α} (h : Firmly e) : Loosely e := fun a x t hx _ => h a x t hx

theorem Solidly.loosely {e : Exp α} (h : Solidly e) : Loosely e := h.firmly.loosely

namespace Loosely

theorem map {f : α → β} {e : Exp α} (h : Loosely e) : Loosely (f <$> e) := by
  rintro b x t ⟨a, ha, -⟩
  exact h a x t ha

theorem seq {f : Exp (α → β)} {e : Exp α} (hf : Loosely f) (he : Loosely e) :
    Loosely (f <*> e) := by
  rintro b z t ⟨g, a, x, y, hg, ha, -, rfl⟩ ht
  exact (hf g x _ hg (by simp [ht])).append (he a y t ha ht)

theorem seqLeft {e : Exp α} {e' : Exp β} (he : Loosely e) (he' : Loosely e') :
    Loosely (e <* e') := he.map.seq he'

theorem seqRight {e : Exp α} {e' : Exp β} (he : Loosely e) (he' : Loosely e') :
    Loosely (e *> e') := he.map.seq he'

theorem opt {e : Exp α} (h : Loosely e) : Loosely (opt e) := by
  intro v x t hv ht
  rcases reads_opt hv with ⟨-, rfl⟩ | ⟨a, -, ha⟩
  · exact .nil
  · exact h a x t ha ht

theorem star {e : Exp α} (h : Loosely e) : Loosely (star e) := by
  intro as x t hx ht
  induction hx with
  | nil _ => exact .nil
  | @cons a as x y t hx _ ih => exact (h a x _ hx (by simp [ht])).append (ih ht)

end Loosely

namespace Firmly

theorem map {f : α → β} {e : Exp α} (h : Firmly e) : Firmly (f <$> e) := by
  rintro b x t ⟨a, ha, -⟩
  exact h a x t ha

theorem seq {f : Exp (α → β)} {e : Exp α} (hf : Firmly f) (he : Firmly e) :
    Firmly (f <*> e) := by
  rintro b z t ⟨g, a, x, y, hg, ha, -, rfl⟩
  exact (hf g x _ hg).append (he a y t ha)

theorem seqLeft {e : Exp α} {e' : Exp β} (he : Firmly e) (he' : Firmly e') :
    Firmly (e <* e') := he.map.seq he'

theorem opt {e : Exp α} (h : Firmly e) : Firmly (opt e) := by
  intro v x t hv
  rcases reads_opt hv with ⟨-, rfl⟩ | ⟨a, -, ha⟩
  · exact .nil
  · exact h a x t ha

theorem star {e : Exp α} (h : Firmly e) : Firmly (star e) := by
  intro as x t hx
  induction hx with
  | nil _ => exact .nil
  | @cons a as x y t hx _ ih => exact (h a x _ hx).append ih

end Firmly

namespace Solidly

theorem map {f : α → β} {e : Exp α} (h : Solidly e) : Solidly (f <$> e) := by
  rintro b x t ⟨a, ha, -⟩
  exact h a x t ha

/-- Something, and what may be nothing behind it. -/
theorem seq {f : Exp (α → β)} {e : Exp α} (hf : Solidly f) (he : Firmly e) :
    Solidly (f <*> e) := by
  rintro b z t ⟨g, a, x, y, hg, ha, -, rfl⟩
  exact ⟨(hf g x _ hg).1.append (he a y t ha), by simp [(hf g x _ hg).2]⟩

theorem seqLeft {e : Exp α} {e' : Exp β} (he : Solidly e) (he' : Firmly e') :
    Solidly (e <* e') := he.map.seq he'

theorem seqRight {e : Exp α} {e' : Exp β} (he : Solidly e) (he' : Firmly e') :
    Solidly (e *> e') := he.map.seq he'

/-- The text does not end in front of something. -/
theorem after {f : Exp (α → β)} {e : Exp α} (hf : Loosely f) (he : Solidly e) :
    Solidly (f <*> e) := by
  rintro b z t ⟨g, a, x, y, hg, ha, -, rfl⟩
  obtain ⟨hy, hne⟩ := he a y t ha
  exact ⟨(hf g x _ hg (by simp [hne])).append hy, by simp [hne]⟩

theorem afterLeft {e : Exp α} {e' : Exp β} (he : Loosely e) (he' : Solidly e') :
    Solidly (e <* e') := after he.map he'

theorem afterRight {e : Exp α} {e' : Exp β} (he : Loosely e) (he' : Solidly e') :
    Solidly (e *> e') := after he.map he'

theorem orElse {e e' : Exp α} (h : Solidly e) (h' : Solidly e') : Solidly (e <|> e') := by
  rintro a x t (ha | ⟨-, ha⟩)
  · exact h a x t ha
  · exact h' a x t ha

theorem plus {e : Exp α} (h : Solidly e) : Solidly (plus e) := h.map.seq h.firmly.star

theorem sat {p : Char → Bool} (hp : ∀ c, p c = true → isPlain c = true) : Solidly (sat p) := by
  rintro c x t ⟨hc, rfl⟩
  exact ⟨.plain (by simpa using hp c hc), by simp⟩

theorem word {w : String} (hw : ∀ c ∈ w.toList, isPlain c = true) (hne : w.toList ≠ []) :
    Solidly (lit w) := by
  rintro v x t ⟨-, rfl⟩
  exact ⟨.plain hw, hne⟩

/-- In brackets. -/
theorem bracket {w w' : String} {c d : Char} {e : Exp α} (hw : w.toList = [c])
    (hc : opening c = true) (he : Loosely e) (hw' : w'.toList = [d]) (hd : closing d = true) :
    Solidly (lit w *> e <* lit w') := by
  intro a z t h
  obtain ⟨v', y', x', hy, ⟨-, rfl⟩, rfl⟩ := reads_seqLeft.mp h
  obtain ⟨v, o, x, ⟨-, rfl⟩, hx, rfl⟩ := reads_seqRight.mp hy
  rw [hw, hw']
  rw [hw'] at hx
  exact ⟨.bracket hc hd (he a x _ hx (by simp)), by simp⟩

/-- A lookahead reads nothing. -/
theorem notAt {e : Exp α} {e' : Exp β} (h : Solidly e') : Solidly (.notAt e *> e') := by
  intro b x t hx
  obtain ⟨u, y, z, ⟨-, rfl⟩, hz, rfl⟩ := reads_seqRight.mp hx
  exact h b _ t hz

end Solidly

end Judgements

/-! ### The rules -/

theorem solidly_rule (r : Rule) (hr : strict r = true) : Solidly (rule r) := by
  intro a x t h
  have hx : Firm x ∧ x ≠ [] := by simpa [Balanced, hr] using h
  exact hx

theorem loosely_rule (r : Rule) (hr : ∀ a x t, Balanced r a x t → t ≠ [] → Firm x) :
    Loosely (rule r) := hr

theorem loosely_space : Loosely (rule .space) := loosely_rule .space fun _ _ _ h => h

theorem loosely_optSpace : Loosely optSpace := .opt loosely_space

theorem firmly_optBlank : Firmly optBlank := .opt (solidly_rule .white_noeol rfl).firmly

theorem solidly_binaryRule {class_ : BinaryClass} {left right : Exp (Option Expr)}
    {op : Exp String} (hl : Solidly left) (ho : Solidly op) (hr : Solidly right) :
    Solidly (binaryRule class_ left op right) := by
  refine .orElse (.after ?_ hr) hl
  exact .seqLeft (.seq (.seqLeft (.map hl.loosely) firmly_optBlank.loosely) ho.loosely)
    loosely_optSpace

theorem solidly_statements : Solidly (grammar .statements) := by
  have hstatement : Solidly (optSpace *> rule .statement) :=
    .afterRight loosely_optSpace (solidly_rule .statement rfl)
  have hmore : Solidly (rule .space_eol *> star (rule .space) *> rule .statement) :=
    .afterRight (.seqRight (solidly_rule .space_eol rfl).loosely (.star loosely_space))
      (solidly_rule .statement rfl)
  exact .seq (.map hstatement) hmore.firmly.star

theorem solidly_statement : Solidly (grammar .statement) := by
  refine .orElse (solidly_rule .if_ rfl) (.orElse (solidly_rule .classdef rfl) ?_)
  refine .orElse (solidly_rule .methoddef rfl) (.orElse (solidly_rule .begin_ rfl) ?_)
  exact .orElse (solidly_rule .while_ rfl) (.map (solidly_rule .expression rfl))

/-- A keyword and what is behind it. -/
theorem loosely_word {w : String} (hw : ∀ c ∈ w.toList, isPlain c = true) (hne : w.toList ≠ []) :
    Loosely (lit w) := (Solidly.word hw hne).loosely

theorem loosely_notAt {α : Type} (e : Exp α) : Loosely (.notAt e) := by
  rintro u x t ⟨-, rfl⟩ -
  exact .nil

theorem loosely_orElse {α : Type} {e e' : Exp α} (h : Loosely e) (h' : Loosely e') :
    Loosely (e <|> e') := by
  rintro a x t (ha | ⟨-, ha⟩)
  · exact h a x t ha
  · exact h' a x t ha

theorem solidly_classdef : Solidly (grammar .classdef) := by
  have hhead : Loosely (lit "class" *> rule .white_noeol *> rule .constant <*
      (rule .white_noeol <|> .notAt (rule .extends_))) :=
    .seqLeft (.seqRight (.seqRight (loosely_word (by decide) (by decide))
      (solidly_rule .white_noeol rfl).loosely) (solidly_rule .constant rfl).loosely)
      (loosely_orElse (solidly_rule .white_noeol rfl).loosely (loosely_notAt _))
  have hbody : Loosely (opt (rule .statements <* rule .space)) :=
    .opt (.seqLeft (solidly_rule .statements rfl).loosely loosely_space)
  exact .afterLeft (.seq (.seqLeft (.seq (.map hhead) (.opt (solidly_rule .extends_ rfl).loosely))
    (solidly_rule .space_eol rfl).loosely) hbody) (.word (by decide) (by decide))

theorem solidly_methoddef : Solidly (grammar .methoddef) := by
  have hhead : Loosely (lit "def" *> rule .space *> rule .thename <* optBlank) :=
    .seqLeft (.seqRight (.seqRight (loosely_word (by decide) (by decide)) loosely_space)
      (solidly_rule .thename rfl).loosely) firmly_optBlank.loosely
  have hparams : Loosely (opt (rule .method_params) : Exp _) :=
    .opt (solidly_rule .method_params rfl).loosely
  exact .afterLeft (.seqLeft (.seq (.seqLeft (.seq (.map hhead) hparams)
    (solidly_rule .space_eol rfl).loosely) (.opt (solidly_rule .statements rfl).loosely))
    loosely_space) (.word (by decide) (by decide))

/-- `optBlank *> rule .statements <* rule .space` -/
theorem loosely_body : Loosely (optBlank *> rule .statements <* rule .space) :=
  .seqLeft (.seqRight firmly_optBlank.loosely (solidly_rule .statements rfl).loosely)
    loosely_space

theorem solidly_if : Solidly (grammar .if_) := by
  have hhead : Loosely (lit "if" *> rule .space *> rule .expression <* rule .space_eol) :=
    .seqLeft (.seqRight (.seqRight (loosely_word (by decide) (by decide)) loosely_space)
      (solidly_rule .expression rfl).loosely) (solidly_rule .space_eol rfl).loosely
  exact .afterLeft (.seq (.seq (.map hhead) loosely_body)
    (.opt (loosely_rule .theelse fun _ _ _ h => h))) (.word (by decide) (by decide))

/-- A keyword, and statements between white space. -/
theorem loosely_part {w : String} (hw : ∀ c ∈ w.toList, isPlain c = true) (hne : w.toList ≠ []) :
    Loosely (lit w *> rule .space *> rule .statements <* rule .space) :=
  .seqLeft (.seqRight (.seqRight (loosely_word hw hne) loosely_space)
    (solidly_rule .statements rfl).loosely) loosely_space

theorem loosely_therescue : Loosely (grammar .therescue) := by
  have htypes : Loosely (lit "rescue" *> opt (rule .white_noeol *> rule .unparenthesised_args)) :=
    .seqRight (loosely_word (by decide) (by decide)) (.opt (.seqRight
      (solidly_rule .white_noeol rfl).loosely (solidly_rule .unparenthesised_args rfl).loosely))
  have hname : Loosely (opt (optBlank *> lit "=>" *> optBlank *> rule .thename)) :=
    .opt (.seqRight (.seqRight (.seqRight firmly_optBlank.loosely
      (loosely_word (by decide) (by decide))) firmly_optBlank.loosely)
      (solidly_rule .thename rfl).loosely)
  exact .seq (.seq (.map htypes) hname) (.seqLeft (.seqRight loosely_space
    (solidly_rule .statements rfl).loosely) loosely_space)

theorem solidly_begin : Solidly (grammar .begin_) := by
  have hhead : Loosely (lit "begin" *> rule .space_eol *> optBlank *> rule .statements
      <* rule .space) :=
    .seqLeft (.seqRight (.seqRight (.seqRight (loosely_word (by decide) (by decide))
      (solidly_rule .space_eol rfl).loosely) firmly_optBlank.loosely)
      (solidly_rule .statements rfl).loosely) loosely_space
  exact .afterLeft (.seq (.seq (.seq (.map hhead)
    (.star (loosely_rule .therescue fun _ _ _ h => h)))
    (.opt (loosely_rule .theelse fun _ _ _ h => h)))
    (.opt (loosely_rule .theensure fun _ _ _ h => h))) (.word (by decide) (by decide))

theorem solidly_while : Solidly (grammar .while_) := by
  have hdo : Loosely (opt (rule .white_noeol *> lit "do")) :=
    .opt (.seqRight (solidly_rule .white_noeol rfl).loosely (loosely_word (by decide) (by decide)))
  have hhead : Loosely (lit "while" *> rule .white_noeol *> rule .expression
      <* opt (rule .white_noeol *> lit "do") <* rule .space_eol) :=
    .seqLeft (.seqLeft (.seqRight (.seqRight (loosely_word (by decide) (by decide))
      (solidly_rule .white_noeol rfl).loosely) (solidly_rule .expression rfl).loosely) hdo)
      (solidly_rule .space_eol rfl).loosely
  exact .afterLeft (.seq (.map hhead) loosely_body) (.word (by decide) (by decide))

/-- `lit "." *> rule .invoke <|> lit "[" *> rule .expression <* lit "]"` -/
theorem solidly_step : Solidly (lit "." *> rule .invoke <|> lit "[" *> rule .expression <* lit "]") :=
  .orElse (.seqRight (.word (by decide) (by decide)) (solidly_rule .invoke rfl).firmly)
    (.bracket (c := '[') (d := ']') (by decide) (by decide)
      (solidly_rule .expression rfl).loosely (by decide) (by decide))

theorem solidly_assignment : Solidly (grammar .assignment) := by
  refine .orElse (.after ?_ (solidly_rule .assignment rfl)) (solidly_rule .conditional rfl)
  refine .seqLeft (.seq (.map (.seqLeft ?_ firmly_optBlank.loosely)) ?_) loosely_optSpace
  · exact (solidly_rule .left_hand_side rfl).loosely
  · exact (solidly_rule .assign_op rfl).loosely

theorem solidly_assign_op : Solidly (grammar .assign_op) := by
  refine .orElse (.notAt (.word (by decide) (by decide))) ?_
  repeat' apply Solidly.orElse
  all_goals exact .word (by decide) (by decide)

theorem solidly_left_hand_side : Solidly (grammar .left_hand_side) :=
  .orElse (.map (.seqRight (solidly_rule .lhs_stem rfl) solidly_step.plus.firmly))
    (solidly_rule .lhs_stem rfl)

theorem solidly_conditional : Solidly (grammar .conditional) := by
  refine .orElse (.map (.afterRight ?_ (solidly_rule .assignment rfl))) (solidly_rule .logical rfl)
  have hquestion : Loosely (rule .logical *> optBlank *> lit "?" *> optSpace) :=
    .seqRight (.seqRight (.seqRight (solidly_rule .logical rfl).loosely firmly_optBlank.loosely)
      (loosely_word (by decide) (by decide))) loosely_optSpace
  exact .seqRight (.seqRight (.seqRight (.seqRight hquestion (solidly_rule .assignment rfl).loosely)
    firmly_optBlank.loosely) (loosely_word (by decide) (by decide))) loosely_optSpace

theorem solidly_words {w w' : String} (hw : ∀ c ∈ w.toList, isPlain c = true)
    (hne : w.toList ≠ []) (hw' : ∀ c ∈ w'.toList, isPlain c = true) (hne' : w'.toList ≠ []) :
    Solidly (lit w <|> lit w') := .orElse (.word hw hne) (.word hw' hne')

theorem solidly_lookup : Solidly (grammar .lookup) :=
  .orElse (.seq (.map (solidly_rule .primary rfl)) solidly_step.plus.firmly)
    (solidly_rule .primary rfl)

theorem solidly_primary : Solidly (grammar .primary) := by
  refine .orElse (solidly_rule .parenthesis rfl) (.orElse (solidly_rule .number rfl) ?_)
  refine .orElse (solidly_rule .bool rfl) (.orElse (solidly_rule .quoted_string rfl) ?_)
  exact .orElse (solidly_rule .invoke rfl) (.map (solidly_rule .instvar rfl))

theorem solidly_invoke : Solidly (grammar .invoke) := by
  have hname : Solidly (rule .named_value <* optBlank) :=
    .seqLeft (solidly_rule .named_value rfl) firmly_optBlank
  have hargs : Firmly (opt (rule .args) : Exp _) := .opt (solidly_rule .args rfl).firmly
  have hblock : Firmly (opt (rule .block) : Exp _) := .opt (solidly_rule .block rfl).firmly
  exact .seq (.seqLeft (.seq (.map hname) hargs) firmly_optBlank) hblock

theorem solidly_parenthesised_args : Solidly (grammar .parenthesised_args) := by
  have hmore : Solidly (lit "," *> rule .expression) :=
    .seqRight (.word (by decide) (by decide)) (solidly_rule .expression rfl).firmly
  have hlist : Solidly (List.cons <$> rule .expression <*> star (lit "," *> rule .expression)) :=
    .seq (.map (solidly_rule .expression rfl)) hmore.firmly.star
  exact .map (.bracket (c := '(') (d := ')') (by decide) (by decide) hlist.loosely.opt
    (by decide) (by decide))

theorem solidly_unparenthesised_args : Solidly (grammar .unparenthesised_args) := by
  have hmore : Solidly (optBlank *> lit "," *> optSpace *> rule .expression) := by
    refine .afterRight (.seqRight (.seqRight firmly_optBlank.loosely ?_) loosely_optSpace)
      (solidly_rule .expression rfl)
    exact loosely_word (by decide) (by decide)
  exact .seq (.map (solidly_rule .expression rfl)) hmore.firmly.star

theorem solidly_block : Solidly (grammar .block) := by
  -- the brackets enclose more than one part
  intro b x t h
  obtain ⟨v, z, y, hz, ⟨-, rfl⟩, rfl⟩ := reads_seqLeft.mp h
  obtain ⟨g, s, u, w, ⟨p, hp, -⟩, hs, -, rfl⟩ := hz
  obtain ⟨v', u', u₃, hu, hparams, rfl⟩ := reads_seqRight.mp hp
  obtain ⟨v'', o, u₂, ⟨-, rfl⟩, hspace, rfl⟩ := reads_seqRight.mp hu
  have hparams' : Firmly (opt (rule .block_params) : Exp _) :=
    .opt (solidly_rule .block_params rfl).firmly
  have hstatements : Firmly (opt (rule .statements) : Exp _) :=
    .opt (solidly_rule .statements rfl).firmly
  have hinner : Firm (u₂ ++ (u₃ ++ w)) :=
    (loosely_optSpace _ _ _ hspace (by simp)).append
      ((hparams' _ _ _ hparams).append (hstatements _ _ _ hs))
  have hfirm := Firm.bracket (o := '\x7b') (c := '\x7d') (by decide) (by decide) hinner
  exact ⟨by simpa using hfirm, by simp⟩

theorem solidly_param_list : Solidly (grammar .param_list) := by
  have hmore : Solidly (lit "," *> optSpace *> rule .param) :=
    .afterRight (.seqRight (loosely_word (by decide) (by decide)) loosely_optSpace)
      (solidly_rule .param rfl)
  exact .seq (.map (solidly_rule .param rfl)) hmore.firmly.star

theorem solidly_param : Solidly (grammar .param) := by
  have hinit : Solidly (lit "=" *> rule .expression) :=
    .seqRight (.word (by decide) (by decide)) (solidly_rule .expression rfl).firmly
  exact .seq (.map (solidly_rule .thename rfl)) hinit.firmly.opt

theorem solidly_name {p : Char → Bool} (hp : ∀ c, p c = true → isPlain c = true) :
    Solidly (ident <$> sat p <*> star (sat identRest)) :=
  .seq (.map (.sat hp)) (Solidly.sat fun _ => isPlain_of_identRest).firmly.star

theorem isPlain_of_identStart {c : Char} (h : identStart c = true) : isPlain c = true :=
  isPlain_of_identRest (identRest_of_identStart h)

theorem solidly_thename : Solidly (grammar .thename) :=
  .afterRight (.seqRight (.seqRight (loosely_notAt _) (loosely_notAt _)) (loosely_notAt _))
    (solidly_name fun _ => isPlain_of_identStart)

theorem solidly_instvar : Solidly (grammar .instvar) := by
  have hrest : Firmly (star (sat identRest)) :=
    (Solidly.sat fun _ => isPlain_of_identRest).firmly.star
  have hname : Solidly ((fun c cs => ident '@' (c :: cs)) <$> sat identStart <*>
      star (sat identRest)) := .seq (.map (.sat fun _ => isPlain_of_identStart)) hrest
  exact .seqRight (.word (by decide) (by decide)) hname.firmly

theorem solidly_number : Solidly (grammar .number) := by
  have hdigit : ∀ c : Char, c.isDigit = true → isPlain c = true := by
    intro c hc
    refine isPlain_of_identRest ?_
    simp [identRest, Char.isAlphanum, hc]
  refine .map (.orElse (.seq (.map (.sat fun c hc => hdigit c ?_)) ?_) ?_)
  · simp_all
  · exact (Solidly.sat hdigit).firmly.star
  · exact .word (by decide) (by decide)

/-- What a string reads. -/
theorem solid_of_untilQuote {q : Char} (hq : isQuote q = true) {x s y t : List Char}
    (h : untilQuote q false s = some (y, t)) (hx : x ++ t = q :: s) : Firm x ∧ x ≠ [] := by
  obtain ⟨rfl, hfirm⟩ := firm_of_untilQuote hq h
  have hx' : x ++ t = (q :: (y ++ [q])) ++ t := by simpa using hx
  rw [List.append_cancel_right hx']
  exact ⟨hfirm, by simp⟩

theorem double_quoted_string_reads {s t : List Char} {a : Option Expr}
    (h : parse grammar (rule .double_quoted_string) s = .ok a t) :
    ∃ r y, s = '"' :: r ∧ untilQuote '"' false r = some (y, t) := by
  rw [parse_double_quoted_string] at h
  cases s with
  | nil => cases h
  | cons c r =>
      by_cases hc : c = '"'
      · simp only [hc, if_true] at h
        cases hr : untilQuote '"' false r with
        | none =>
            rw [hr] at h
            cases h
        | some p =>
            rw [hr] at h
            cases h
            exact ⟨r, p.1, by rw [hc], hr⟩
      · simp [hc] at h

theorem single_quoted_string_reads {s t : List Char} {a : Option Expr}
    (h : parse grammar (rule .single_quoted_string) s = .ok a t) :
    ∃ r y, s = '\x27' :: r ∧ untilQuote '\x27' false r = some (y, t) := by
  rw [parse_single_quoted_string] at h
  cases s with
  | nil => cases h
  | cons c r =>
      by_cases hc : c = '\x27'
      · simp only [hc, if_true] at h
        cases hr : untilQuote '\x27' false r with
        | none =>
            rw [hr] at h
            cases h
        | some p =>
            rw [hr] at h
            cases h
            exact ⟨r, p.1, by rw [hc], hr⟩
      · simp [hc] at h

theorem firm_space {a : Unit} {x t : List Char}
    (h : parse grammar (rule .space) (x ++ t) = .ok a t) (ht : t ≠ []) : Firm x := by
  intro depth
  rw [parse_space] at h
  split at h
  · simp only [Result.ok.injEq] at h
    obtain ⟨y, hy, hscan⟩ := scan_skipSpace (b := false) (s := x ++ t) depth
    rw [h.2] at hy hscan
    rw [List.append_cancel_right hy]
    exact hscan.resolve_left ht
  · cases h

theorem comment_reads {a : Unit} {x t : List Char}
    (h : parse grammar (rule .comment_to_eol) (x ++ t) = .ok a t) (ht : t ≠ []) :
    ∃ y r, x = '#' :: y ∧ '\n' ∉ y ∧ t = '\n' :: r := by
  by_cases hhead : (x ++ t).head? = some '#'
  · obtain ⟨s, hs⟩ : ∃ s, x ++ t = '#' :: s := by
      cases hxt : x ++ t with
      | nil => simp [hxt] at hhead
      | cons c s =>
          rw [hxt] at hhead
          cases hhead
          exact ⟨s, rfl⟩
    rw [hs, parse_comment] at h
    simp only [Result.ok.injEq] at h
    have hsplit : x ++ t = ('#' :: s.takeWhile (· != '\n')) ++ t := by
      calc x ++ t = '#' :: (s.takeWhile (· != '\n') ++ s.dropWhile (· != '\n')) := by
            rw [hs, List.takeWhile_append_dropWhile]
        _ = _ := by rw [h.2, List.cons_append]
    obtain ⟨c, r, rfl⟩ := List.exists_cons_of_ne_nil ht
    have hc := head_dropWhile (· != '\n') s
    rw [h.2] at hc
    refine ⟨_, r, List.append_cancel_right hsplit, fun hmem => ?_, ?_⟩
    · simpa using List.all_eq_true.mp List.all_takeWhile _ hmem
    · simp_all
  · rw [parse_comment_fail hhead] at h
    cases h

/-- The end of a comment belongs to the end of its line. -/
theorem solidly_space_eol : Solidly (grammar .space_eol) := by
  refine .map (.plus fun v x t h => ?_)
  obtain ⟨w, y, z, hy, hz, rfl⟩ := reads_seqRight.mp h
  obtain ⟨bs, b, c, hb, hcomment, rfl⟩ := reads_seqRight.mp hy
  have hblanks : Firmly (star (rule .white_noeol)) := (solidly_rule .white_noeol rfl).firmly.star
  have heols : Solidly (plus (sat isEol)) :=
    .plus (.sat fun c hc => isPlain_of_isWhite (by simp [isWhite, hc]))
  obtain ⟨hfirm, hne⟩ := heols v z t hz
  refine ⟨?_, by simp [hne]⟩
  rw [List.append_assoc]
  refine (hblanks bs b _ hb).append ?_
  rcases reads_opt hcomment with ⟨-, rfl⟩ | ⟨u, -, hu⟩
  · exact hfirm
  · have hread : Balanced .comment_to_eol u c (z ++ t) := hu
    obtain ⟨y', r, rfl, hy', hr⟩ := hread (by simp [hne])
    obtain ⟨d, z', rfl⟩ := List.exists_cons_of_ne_nil hne
    obtain rfl : d = '\n' := by simpa using (List.cons.inj hr).1
    exact .comment hy' hfirm

/-- **What a rule reads is balanced.** -/
theorem balanced_rule (r : Rule) (a : Value r) (x t : List Char)
    (hparse : parse grammar (.rule r) (x ++ t) = .ok a t)
    (h : (grammar r).Reads grammar Balanced a x t) : Balanced r a x t := by
  cases r with
  | unit => exact trivial
  | eof => exact trivial
  | statements => exact solidly_statements a x t h
  | statement => exact solidly_statement a x t h
  | classdef => exact solidly_classdef a x t h
  | extends_ =>
      refine Solidly.afterRight (.seqRight ?_ loosely_optSpace) (solidly_rule .expression rfl) a x t h
      exact loosely_word (by decide) (by decide)
  | methoddef => exact solidly_methoddef a x t h
  | method_params =>
      exact Solidly.bracket (c := '(') (d := ')') (by decide) (by decide)
        (solidly_rule .param_list rfl).loosely (by decide) (by decide) a x t h
  | if_ => exact solidly_if a x t h
  | theelse => exact loosely_part (by decide) (by decide) a x t h
  | begin_ => exact solidly_begin a x t h
  | therescue => exact loosely_therescue a x t h
  | theensure => exact loosely_part (by decide) (by decide) a x t h
  | while_ => exact solidly_while a x t h
  | expression => exact solidly_rule .assignment rfl a x t h
  | assignment => exact solidly_assignment a x t h
  | assign_op => exact solidly_assign_op a x t h
  | lhs_stem =>
      exact Solidly.orElse (.map (solidly_rule .thename rfl)) (.map (solidly_rule .instvar rfl))
        a x t h
  | left_hand_side => exact solidly_left_hand_side a x t h
  | conditional => exact solidly_conditional a x t h
  | logical =>
      exact solidly_binaryRule (solidly_rule .bitwise rfl) (solidly_rule .logic_op rfl)
        (solidly_rule .logical rfl) a x t h
  | logic_op => exact solidly_words (by decide) (by decide) (by decide) (by decide) a x t h
  | bitwise =>
      exact solidly_binaryRule (solidly_rule .equality rfl) (solidly_rule .bit_op rfl)
        (solidly_rule .bitwise rfl) a x t h
  | bit_op =>
      exact Solidly.orElse (.word (by decide) (by decide)) (.orElse (.word (by decide) (by decide))
        (solidly_words (by decide) (by decide) (by decide) (by decide))) a x t h
  | equality =>
      exact solidly_binaryRule (solidly_rule .relational rfl) (solidly_rule .equality_op rfl)
        (solidly_rule .equality rfl) a x t h
  | equality_op => exact solidly_words (by decide) (by decide) (by decide) (by decide) a x t h
  | relational =>
      exact solidly_binaryRule (solidly_rule .additive rfl) (solidly_rule .relational_op rfl)
        (solidly_rule .relational rfl) a x t h
  | relational_op =>
      exact Solidly.orElse (.word (by decide) (by decide)) (.orElse (.word (by decide) (by decide))
        (solidly_words (by decide) (by decide) (by decide) (by decide))) a x t h
  | additive =>
      exact solidly_binaryRule (solidly_rule .multitive rfl) (solidly_rule .add_op rfl)
        (solidly_rule .additive rfl) a x t h
  | add_op => exact solidly_words (by decide) (by decide) (by decide) (by decide) a x t h
  | multitive =>
      exact solidly_binaryRule (solidly_rule .lookup rfl) (solidly_rule .mult_op rfl)
        (solidly_rule .multitive rfl) a x t h
  | mult_op => exact solidly_words (by decide) (by decide) (by decide) (by decide) a x t h
  | lookup => exact solidly_lookup a x t h
  | primary => exact solidly_primary a x t h
  | parenthesis =>
      exact Solidly.bracket (c := '(') (d := ')') (by decide) (by decide)
        (solidly_rule .expression rfl).loosely (by decide) (by decide) a x t h
  | invoke => exact solidly_invoke a x t h
  | args =>
      exact Solidly.orElse (solidly_rule .parenthesised_args rfl)
        (solidly_rule .unparenthesised_args rfl) a x t h
  | parenthesised_args => exact solidly_parenthesised_args a x t h
  | unparenthesised_args => exact solidly_unparenthesised_args a x t h
  | block => exact solidly_block a x t h
  | block_params =>
      exact Solidly.seqLeft (.seqRight (.word (by decide) (by decide))
        (solidly_rule .param_list rfl).firmly) (Solidly.word (by decide) (by decide)).firmly a x t h
  | param_list => exact solidly_param_list a x t h
  | param => exact solidly_param a x t h
  | number => exact solidly_number a x t h
  | bool =>
      exact Solidly.orElse (.map (.word (by decide) (by decide)))
        (.map (.word (by decide) (by decide))) a x t h
  | quoted_string =>
      exact Solidly.orElse (solidly_rule .single_quoted_string rfl)
        (solidly_rule .double_quoted_string rfl) a x t h
  | named_value =>
      exact Solidly.orElse (.map (solidly_rule .constant rfl)) (.map (solidly_rule .thename rfl))
        a x t h
  | constant =>
      exact solidly_name (fun c hc => isPlain_of_identRest (identRest_of_isUpper hc)) a x t h
  | thename => exact solidly_thename a x t h
  | instvar => exact solidly_instvar a x t h
  | double_quoted_string =>
      obtain ⟨s, y, hs, hy⟩ := double_quoted_string_reads hparse
      exact solid_of_untilQuote rfl hy hs
  | single_quoted_string =>
      obtain ⟨s, y, hs, hy⟩ := single_quoted_string_reads hparse
      exact solid_of_untilQuote rfl hy hs
  | space => exact fun ht => firm_space hparse ht
  | space_eol => exact solidly_space_eol a x t h
  | comment_to_eol => exact fun ht => comment_reads hparse ht
  | white_noeol =>
      exact Solidly.map (.plus (.sat fun c hc => isPlain_of_isWhite (by simp [isWhite, hc]))) a x t h
  | white => exact Solidly.map (.sat fun c hc => isPlain_of_isWhite hc) a x t h

/-- **What an expression has read is firm.** -/
theorem firm_of_parse {r : Rule} (hr : strict r = true) {s : List Char} {a : Value r}
    {t : List Char} (h : parse grammar (.rule r) s = .ok a t) : ∃ x, s = x ++ t ∧ Firm x ∧ x ≠ [] := by
  obtain ⟨x, hs, hx⟩ := parse_rule_induction balanced_rule h
  exact ⟨x, hs, by simpa [Balanced, hr] using hx⟩

end Pup.Parse
