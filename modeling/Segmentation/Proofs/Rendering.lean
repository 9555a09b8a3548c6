import Segmentation.Json.Reader
import Segmentation.Json.Writer
import Segmentation.Proofs.Identifier

namespace Segmentation

namespace Json

theorem hexUnit?_control (n : Fin 32) (rest : List Char) :
    hexUnit? ('0' :: '0' :: Text.hexDigit (n / 16) :: Text.hexDigit (n % 16) :: rest) =
      some (n.val, rest) := by
  have hdigits : Text.ofDigits? 16 ['0', '0', Text.hexDigit (n / 16), Text.hexDigit (n % 16)] =
      some n.val := by
    revert n
    decide
  simp [hexUnit?, hdigits]

theorem escaped?_control {c : Char} (h : c.toNat < 0x20) (rest : List Char) :
    escaped? ('0' :: '0' :: Text.hexDigit (c.toNat / 16) :: Text.hexDigit (c.toNat % 16) :: rest) =
      some (c, rest) := by
  have hunit := hexUnit?_control ⟨c.toNat, h⟩ rest
  have hlow : ¬ (0xD800 ≤ c.toNat ∧ c.toNat < 0xDC00) := by omega
  have hhigh : ¬ (0xDC00 ≤ c.toNat ∧ c.toNat < 0xE000) := by omega
  simp only at hunit
  simp [escaped?, hunit, hlow, hhigh]

theorem chars?_escape (fuel : Nat) (c : Char) (rest : List Char) :
    chars? (fuel + 1) (escape c ++ rest) =
      (chars? fuel rest).map fun (cs, rest) => (c :: cs, rest) := by
  have hmap (c : Char) : (chars? fuel rest).map (fun (cs, rest) => (c :: cs, rest)) =
      (chars? fuel rest).bind fun (cs, rest) => some (c :: cs, rest) := by
    cases chars? fuel rest <;> rfl
  rw [hmap, escape]
  split_ifs with hquote hback hline hreturn htab hbell hform hcontrol
  · subst hquote; rfl
  · subst hback; rfl
  · subst hline; rfl
  · subst hreturn; rfl
  · subst htab; rfl
  · subst hbell; rfl
  · subst hform; rfl
  · simp [chars?, escaped?_control hcontrol]
  · simp [chars?, hcontrol]

theorem chars?_flatMap_escape (cs rest : List Char) {fuel : Nat} (h : cs.length < fuel) :
    chars? fuel (cs.flatMap escape ++ '"' :: rest) = some (cs, rest) := by
  induction cs generalizing fuel with
  | nil =>
    obtain ⟨fuel, rfl⟩ := Nat.exists_eq_succ_of_ne_zero (Nat.ne_zero_of_lt h)
    rfl
  | cons c cs ih =>
    obtain ⟨fuel, rfl⟩ := Nat.exists_eq_succ_of_ne_zero (Nat.ne_zero_of_lt h)
    rw [List.flatMap_cons, List.append_assoc, chars?_escape,
      ih (by simpa using h)]
    rfl

theorem quote_append_inj {s s' : String} {rest rest' : List Char}
    (h : quote s ++ rest = quote s' ++ rest') : s = s' ∧ rest = rest' := by
  have hread := congrArg (fun cs => chars? (s.toList.length + s'.toList.length + 1) cs.tail) h
  simp only [quote, List.cons_append, List.tail_cons, List.append_assoc, List.nil_append] at hread
  rw [chars?_flatMap_escape _ _ (by omega), chars?_flatMap_escape _ _ (by omega)] at hread
  simp only [Option.some.injEq, Prod.mk.injEq, String.toList_inj] at hread
  exact hread

/-- What may stand behind a number. -/
def Ending (cs : List Char) : Prop := ∀ c ∈ cs.head?, ¬ c.isDigit

/-- Among the texts of things with a property, that of `a` tells both `a` and where it ends. -/
def Telling {α : Type} (code : α → List Char) (P : α → Prop) (a : α) : Prop :=
  ∀ b, P b → ∀ rest rest', Ending rest → Ending rest' → code a ++ rest = code b ++ rest' →
    a = b ∧ rest = rest'

def separated {α : Type} (code : α → List Char) (close : Char) : List α → List Char
  | [] => [close]
  | a :: rest => code a ++ (rest.flatMap fun b => ',' :: code b) ++ [close]

section

variable {α : Type} {code : α → List Char} {P : α → Prop} {close : Char} {l l' : List α}
  {rest rest' : List Char}

theorem ending_separated_tail (hclose : close.isDigit = false) :
    Ending ((l.flatMap fun b => ',' :: code b) ++ close :: rest) := by
  cases l <;> simp [Ending, hclose]

theorem separated_tail_inj (hclose : close.isDigit = false) (hcomma : close ≠ ',')
    (h : ∀ a ∈ l, Telling code P a) (h' : ∀ a ∈ l', P a)
    (he : (l.flatMap fun b => ',' :: code b) ++ close :: rest =
      (l'.flatMap fun b => ',' :: code b) ++ close :: rest') : l = l' ∧ rest = rest' := by
  induction l generalizing l' with
  | nil =>
    cases l' with
    | nil => simpa using he
    | cons b l' => simp [hcomma] at he
  | cons a l ih =>
    cases l' with
    | nil => simp [Ne.symm hcomma] at he
    | cons b l' =>
      simp only [List.flatMap_cons, List.cons_append, List.append_assoc, List.cons.injEq,
        true_and] at he
      rw [List.forall_mem_cons] at h h'
      obtain ⟨rfl, htail⟩ := h.1 b h'.1 _ _ (ending_separated_tail hclose)
        (ending_separated_tail hclose) he
      obtain ⟨rfl, hrest⟩ := ih h.2 h'.2 htail
      exact ⟨rfl, hrest⟩

theorem separated_append_inj (hclose : close.isDigit = false) (hcomma : close ≠ ',')
    (hhead : ∀ a, P a → ∀ rest rest', code a ++ rest ≠ close :: rest')
    (h : ∀ a ∈ l, P a ∧ Telling code P a) (h' : ∀ a ∈ l', P a)
    (he : separated code close l ++ rest = separated code close l' ++ rest') :
    l = l' ∧ rest = rest' := by
  cases l with
  | nil =>
    cases l' with
    | nil => simpa [separated] using he
    | cons b l' =>
      rw [List.forall_mem_cons] at h'
      simp only [separated, List.append_assoc] at he
      exact absurd he.symm (hhead b h'.1 _ _)
  | cons a l =>
    rw [List.forall_mem_cons] at h
    cases l' with
    | nil =>
      simp only [separated, List.append_assoc] at he
      exact absurd he (hhead a h.1.1 _ _)
    | cons b l' =>
      rw [List.forall_mem_cons] at h'
      simp only [separated, List.append_assoc, List.singleton_append] at he
      obtain ⟨rfl, htail⟩ := h.1.2 b h'.1 _ _ (ending_separated_tail hclose)
        (ending_separated_tail hclose) he
      obtain ⟨rfl, hrest⟩ :=
        separated_tail_inj hclose hcomma (fun a ha => (h.2 a ha).2) h'.2 htail
      exact ⟨rfl, hrest⟩

end

def writeEntry (e : String × Document) : List Char := quote e.1 ++ ':' :: write e.2

theorem writeItems_eq (items : List Document) : writeItems items = separated write ']' items := by
  induction items with
  | nil => rfl
  | cons d rest ih =>
    cases rest with
    | nil => simp [writeItems, separated]
    | cons e rest => simp [writeItems, ih, separated]

theorem writeEntries_eq (entries : List (String × Document)) :
    writeEntries entries = separated writeEntry '\x7d' entries := by
  induction entries with
  | nil => rfl
  | cons e rest ih =>
    cases rest with
    | nil => simp [writeEntries, separated, writeEntry]
    | cons e' rest => simp [writeEntries, ih, separated, writeEntry]

end Json

namespace Document

/-- Documents of texts and numbers without a sign. -/
inductive Elementary : Document → Prop where
  | text (s : String) : Elementary (.text s)
  | natural (n : Nat) : Elementary (.integer n)
  | sequence {items : List Document} (h : ∀ d ∈ items, Elementary d) :
    Elementary (.sequence items)
  | mapping {entries : List (String × Document)} (h : ∀ e ∈ entries, Elementary e.2) :
    Elementary (.mapping entries)

end Document

namespace Json

open Document

theorem toString_append_ne (n : Nat) {c : Char} (hc : c.isDigit = false) (rest rest' : List Char) :
    (toString n).toList ++ rest ≠ c :: rest' := by
  intro h
  cases hn : (toString n).toList with
  | nil =>
    rw [Nat.toString_eq_ofList_toDigits, String.toList_ofList] at hn
    exact Nat.toDigits_ne_nil hn
  | cons c' cs =>
    have hdigit : c'.isDigit := isDigit_of_mem_toString (hn ▸ List.mem_cons_self)
    rw [hn, List.cons_append, List.cons.injEq] at h
    rw [h.1, hc] at hdigit
    contradiction

theorem takeWhile_isDigit (n : Nat) {rest : List Char} (h : Ending rest) :
    ((toString n).toList ++ rest).takeWhile Char.isDigit = (toString n).toList := by
  rw [List.takeWhile_append_of_pos fun c hc => isDigit_of_mem_toString hc]
  cases rest with
  | nil => simp
  | cons c rest => rw [List.takeWhile_cons_of_neg (h c rfl), List.append_nil]

theorem toString_append_inj {m n : Nat} {rest rest' : List Char} (hrest : Ending rest)
    (hrest' : Ending rest') (he : (toString m).toList ++ rest = (toString n).toList ++ rest') :
    m = n ∧ rest = rest' := by
  have hdigits := congrArg (List.takeWhile Char.isDigit) he
  rw [takeWhile_isDigit m hrest, takeWhile_isDigit n hrest', String.toList_inj] at hdigits
  obtain rfl := toString_injective hdigits
  exact ⟨rfl, List.append_cancel_left he⟩

theorem write_append_ne {d : Document} (h : d.Elementary) (rest rest' : List Char) :
    write d ++ rest ≠ ']' :: rest' := by
  cases h with
  | text s => simp [write, quote]
  | natural n => exact toString_append_ne n rfl rest rest'
  | sequence => simp [write]
  | mapping => simp [write]

theorem telling_writeEntry {e : String × Document} (h : Telling write Elementary e.2) :
    Telling writeEntry (fun e => e.2.Elementary) e := by
  rintro ⟨k, d⟩ hd rest rest' hrest hrest' he
  simp only [writeEntry, List.append_assoc, List.cons_append] at he
  obtain ⟨hkey, hvalue⟩ := quote_append_inj he
  obtain ⟨hd, hrest⟩ := h d hd rest rest' hrest hrest' (List.cons.inj hvalue).2
  exact ⟨Prod.ext hkey hd, hrest⟩

theorem telling_write {d : Document} (h : d.Elementary) : Telling write Elementary d := by
  -- on one of the two documents, as the first sign says what the other must be
  induction h with
  | text s =>
    intro d hd rest rest' _ _ he
    cases hd with
    | text s' =>
      obtain ⟨rfl, hrest⟩ := quote_append_inj he
      exact ⟨rfl, hrest⟩
    | natural n => exact absurd he.symm (toString_append_ne n rfl _ _)
    | sequence => simp [write, quote] at he
    | mapping => simp [write, quote] at he
  | natural m =>
    intro d hd rest rest' hrest hrest' he
    cases hd with
    | text s => exact absurd he (toString_append_ne m rfl _ _)
    | natural n =>
      obtain ⟨rfl, hrest⟩ := toString_append_inj hrest hrest' he
      exact ⟨rfl, hrest⟩
    | sequence => exact absurd he (toString_append_ne m rfl _ _)
    | mapping => exact absurd he (toString_append_ne m rfl _ _)
  | @sequence items hitems ih =>
    intro d hd rest rest' _ _ he
    cases hd with
    | text s => simp [write, quote] at he
    | natural n => exact absurd he.symm (toString_append_ne n rfl _ _)
    | sequence hitems' =>
      simp only [write, writeItems_eq, List.cons_append, List.cons.injEq, true_and] at he
      obtain ⟨rfl, hrest⟩ := separated_append_inj rfl (by decide) (fun d hd => write_append_ne hd)
        (fun d hd => ⟨hitems d hd, ih d hd⟩) hitems' he
      exact ⟨rfl, hrest⟩
    | mapping => simp [write] at he
  | @mapping entries hentries ih =>
    intro d hd rest rest' _ _ he
    cases hd with
    | text s => simp [write, quote] at he
    | natural n => exact absurd he.symm (toString_append_ne n rfl _ _)
    | sequence => simp [write] at he
    | mapping hentries' =>
      simp only [write, writeEntries_eq, List.cons_append, List.cons.injEq, true_and] at he
      obtain ⟨rfl, hrest⟩ := separated_append_inj rfl (by decide)
        (fun e _ => by simp [writeEntry, quote])
        (fun e he => ⟨hentries e he, telling_writeEntry (ih e he)⟩) hentries' he
      exact ⟨rfl, hrest⟩

theorem render_inj {d d' : Document} (h : d.Elementary) (h' : d'.Elementary) :
    render d = render d' ↔ d = d' := by
  refine ⟨fun he => ?_, congrArg render⟩
  have hwrite : write d ++ [] = write d' ++ [] := by
    simpa [render] using congrArg String.toList he
  exact (telling_write h d' h' [] [] nofun nofun hwrite).1

end Json

end Segmentation
