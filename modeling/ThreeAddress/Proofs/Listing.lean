import ThreeAddress.Asm

/-!
The lines of assembly text.  A line of code is printed as one row, its indentation included, and a newline; so the lines
of a listing are the rows of its code, unless there is a newline in a row.  All lines but comments are written in words
(`Asm.tokens`): mnemonics, registers, numbers and symbols, none of which holds a newline or a `#`.  The text of a
comment is printed as it is, and each newline in it starts a line that is not marked as a comment.

Main statement: the lines that do not show as comments are the lines of the code without its comments if and only if
each comment whose text has several lines has the comment mark in front of all of them (`Asm.comments_contained_iff`).
-/

namespace ThreeAddress

/-! ### Lines -/

namespace Text

/-- The lines of a text.  A newline ends a line; what comes after the last one is a line unless it is empty. -/
def lines (cs : List Char) : List (List Char) :=
  let pieces := cs.splitOn '\n'
  if pieces.getLast? = some [] then pieces.dropLast else pieces

/-- The text of rows that are each ended by a newline. -/
def unlines (rows : List (List Char)) : List Char := rows.flatMap (· ++ ['\n'])

theorem unlines_cons (row : List Char) (rows : List (List Char)) :
    unlines (row :: rows) = row ++ '\n' :: unlines rows := by simp [unlines]

theorem lines_append (row rest : List Char) : lines (row ++ '\n' :: rest) = row.splitOn '\n' ++ lines rest := by
  have hne : rest.splitOn '\n' ≠ [] := List.splitOn_ne_nil '\n' rest
  have hlast : (row.splitOn '\n' ++ rest.splitOn '\n').getLast? = (rest.splitOn '\n').getLast? := by
    rw [List.getLast?_append, List.getLast?_eq_some_getLast hne, Option.some_or]
  unfold lines
  rw [List.splitOn_append_cons_self]
  dsimp only
  rw [hlast]
  split
  · exact List.dropLast_append_of_ne_nil hne
  · rfl

theorem lines_unlines (rows : List (List Char)) : lines (unlines rows) = rows.flatMap (·.splitOn '\n') := by
  induction rows with
  | nil => rfl
  | cons row rows ih => rw [unlines_cons, lines_append, ih, List.flatMap_cons]

theorem splitOn_append {cs : List Char} (h : '\n' ∉ cs) (rest : List Char) :
    (cs ++ rest).splitOn '\n' = (rest.splitOn '\n').modifyHead (cs ++ ·) := by
  induction cs with
  | nil =>
    rw [List.nil_append]
    cases rest.splitOn '\n' <;> rfl
  | cons c cs ih =>
    obtain ⟨hc, hcs⟩ : '\n' ≠ c ∧ '\n' ∉ cs := by simpa using h
    have hstep : (c :: (cs ++ rest)).splitOn '\n' = ((cs ++ rest).splitOn '\n').modifyHead (c :: ·) := by
      rw [List.splitOn, List.splitOnP_cons_eq_if_modifyHead, if_neg (by simpa using Ne.symm hc)]
      rfl
    rw [List.cons_append, hstep, ih hcs, List.modifyHead_modifyHead]
    rfl

def mark : List Char := "    #".toList

/-- Whether a line shows as a comment: four spaces and a `#` stand in front. -/
def isRemark (line : List Char) : Bool := mark.isPrefixOf line

theorem isRemark_comment (cs : List Char) : isRemark ("    # ".toList ++ cs) = true :=
  List.isPrefixOf_iff_prefix.2 ⟨' ' :: cs, rfl⟩

/-! ### Words -/

/-- Whether the character may stand in a symbol: a letter, a digit, or one of `_`, `.` and `$`.  Every character beyond
ASCII counts as a letter. -/
def isSymbolChar (c : Char) : Bool := c.isAlphanum || c ∈ ['_', '.', '$'] || 128 ≤ c.toNat

/-- Whether the character may stand in a word: in a symbol, in the name of a register, or in a number. -/
def isWordChar (c : Char) : Bool := isSymbolChar c || c = '-'

/-- Whether the character may stand between words. -/
def isSeparator (c : Char) : Bool := c ∈ [' ', ',', '(', ')', ':']

/-- Characters that make up one word. -/
def IsWord (w : List Char) : Prop := w ≠ [] ∧ w.all isWordChar = true

instance (w : List Char) : Decidable (IsWord w) := inferInstanceAs (Decidable (_ ∧ _))

/-- A word and what stands between it and the next. -/
structure Token where
  word : String
  after : String

def spell (ts : List Token) : List Char := ts.flatMap fun t => t.word.toList ++ t.after.toList

/-- The token can be told from its text. -/
def Token.Formed (t : Token) : Prop := IsWord t.word.toList ∧ t.after.toList.all isSeparator = true

instance (t : Token) : Decidable t.Formed := inferInstanceAs (Decidable (_ ∧ _))

theorem notMem_spell {ts : List Token} (h : ∀ t ∈ ts, t.Formed) {c : Char} (hword : isWordChar c = false)
    (hsep : isSeparator c = false) : c ∉ spell ts := by
  intro hc
  obtain ⟨t, ht, hc⟩ := List.mem_flatMap.1 hc
  rcases List.mem_append.1 hc with hc | hc
  · simp [List.all_eq_true.1 (h t ht).1.2 c hc] at hword
  · simp [List.all_eq_true.1 (h t ht).2 c hc] at hsep

end Text

open Text

/-- The label can be written in assembly text: it is not empty and has characters of symbols only. -/
def Label.IsSymbol (l : Label) : Prop := l.name.toList ≠ [] ∧ l.name.toList.all isSymbolChar = true

instance (l : Label) : Decidable l.IsSymbol := inferInstanceAs (Decidable (_ ∧ _))

theorem Label.IsSymbol.isWord {l : Label} (h : l.IsSymbol) : IsWord l.name.toList :=
  ⟨h.1, List.all_eq_true.2 fun c hc => by simp [isWordChar, List.all_eq_true.1 h.2 c hc]⟩

theorem Reg.isWord_name (r : Reg) : IsWord r.name.toList := by cases r <;> decide

theorem AluOp.isWord_text (op : AluOp) : IsWord op.text.toList := by cases op <;> decide

theorem RegOp.isWord_text (op : RegOp) : IsWord op.text.toList := by cases op <;> decide

theorem Test.isWord_mnemonic (t : Test) : IsWord t.mnemonic.toList := by cases t <;> decide

theorem Text.isWord_repr (n : Nat) : IsWord n.repr.toList := by
  rw [Nat.toList_repr]
  refine ⟨Nat.toDigits_ne_nil, List.all_eq_true.2 fun c hc => ?_⟩
  have hdigit : c.isDigit = true := Nat.isDigit_of_mem_toDigits (by decide) (by decide) hc
  simp [isWordChar, isSymbolChar, Char.isAlphanum, hdigit]

theorem Text.isWord_intRepr (i : Int) : IsWord i.repr.toList := by
  rw [Int.repr_eq_if]
  split
  · exact isWord_repr _
  · obtain ⟨-, hdigits⟩ := isWord_repr (-i).toNat
    rw [String.toList_append]
    refine ⟨by simp, ?_⟩
    rw [List.all_append, hdigits]
    rfl

/-! ### Rows -/

namespace Asm

def isComment : Asm → Bool
  | comment _ => true
  | _ => false

def remark? : Asm → Option String
  | comment text => some text
  | _ => none

theorem exists_comment {a : Asm} (h : a.isComment = true) : ∃ text, a = comment text := by
  cases a with
  | comment text => exact ⟨text, rfl⟩
  | alu | addi | li | unary | lw | sw | j | branch | call | ret | label => simp [isComment] at h

def uncommented (code : List Asm) : List Asm := code.filter fun a => !a.isComment

/-- The label that a line defines, or that it jumps to or calls. -/
def mention? : Asm → Option Label
  | j l | branch _ _ l | call l | label l => some l
  | _ => none

/-- The line without the newline that ends it. -/
def row (a : Asm) : List Char := a.line.toList.dropLast

theorem toList_line (a : Asm) : a.line.toList = a.row ++ ['\n'] := by
  obtain ⟨s, hs⟩ : ∃ s, a.line = s ++ "\n" := by cases a <;> exact ⟨_, rfl⟩
  have hlist : a.line.toList = s.toList ++ ['\n'] := by rw [hs, String.toList_append]; rfl
  rw [row, hlist, List.dropLast_concat]

theorem row_label (l : Label) : (label l).row = (label l).text.toList := by
  have hline : (label l).line.toList = (label l).text.toList ++ ['\n'] := by
    rw [line, String.toList_append]
    rfl
  rw [row, hline, List.dropLast_concat]

theorem row_of_ne_label {a : Asm} (h : ∀ l, a ≠ label l) : a.row = "    ".toList ++ a.text.toList := by
  have hline : a.line = "    " ++ a.text ++ "\n" := by
    cases a with
    | label l => exact absurd rfl (h l)
    | alu | addi | li | unary | lw | sw | j | branch | call | ret | comment => rfl
  have hlist : a.line.toList = ("    ".toList ++ a.text.toList) ++ ['\n'] := by
    rw [hline, String.toList_append, String.toList_append]
    rfl
  rw [row, hlist, List.dropLast_concat]

theorem row_comment (text : String) : (comment text).row = "    # ".toList ++ text.toList := by
  rw [row_of_ne_label (by simp), Asm.text, String.toList_append]
  rfl

theorem toList_listing (code : List Asm) : (listing code).toList = unlines (code.map row) := by
  simp [listing, unlines, String.toList_join, List.flatMap_map, toList_line]

def tokens : Asm → List Token
  | alu op rd rs rt => [⟨op.text, " "⟩, ⟨rd.name, ", "⟩, ⟨rs.name, ", "⟩, ⟨rt.name, ""⟩]
  | addi rd rs imm => [⟨"addi", " "⟩, ⟨rd.name, ", "⟩, ⟨rs.name, ", "⟩, ⟨imm.repr, ""⟩]
  | li rd imm => [⟨"li", " "⟩, ⟨rd.name, ", "⟩, ⟨imm.toInt.repr, ""⟩]
  | unary op rd rs => [⟨op.text, " "⟩, ⟨rd.name, ", "⟩, ⟨rs.name, ""⟩]
  | lw rd offset base => [⟨"lw", " "⟩, ⟨rd.name, ", "⟩, ⟨offset.repr, "("⟩, ⟨base.name, ")"⟩]
  | sw rs offset base => [⟨"sw", " "⟩, ⟨rs.name, ", "⟩, ⟨offset.repr, "("⟩, ⟨base.name, ")"⟩]
  | j target => [⟨"j", " "⟩, ⟨target.name, ""⟩]
  | branch test rs target => [⟨test.mnemonic, " "⟩, ⟨rs.name, ", "⟩, ⟨target.name, ""⟩]
  | call target => [⟨"call", " "⟩, ⟨target.name, ""⟩]
  | ret => [⟨"ret", ""⟩]
  | label name => [⟨name.name, ":"⟩]
  | comment _ => []

theorem toList_text {a : Asm} (h : a.isComment = false) : a.text.toList = spell a.tokens := by
  cases a with
  | comment => simp [isComment] at h
  | li => simp [text, tokens, spell, Word.text]
  | alu | addi | unary | lw | sw | j | branch | call | ret | label => simp [text, tokens, spell]

theorem formed_tokens {a : Asm} (h : ∀ l ∈ a.mention?, l.IsSymbol) : ∀ t ∈ a.tokens, t.Formed := by
  have hname : ∀ l ∈ a.mention?, IsWord l.name.toList := fun l hl => (h l hl).isWord
  have hword : ∀ t ∈ a.tokens, IsWord t.word.toList := by
    cases a with
    | alu op => simp [tokens, Reg.isWord_name, op.isWord_text]
    | unary op => simp [tokens, Reg.isWord_name, op.isWord_text]
    | addi | li | lw | sw => simp +decide [tokens, Reg.isWord_name, isWord_intRepr]
    | branch t rs l => simp [tokens, Reg.isWord_name, t.isWord_mnemonic, hname l rfl]
    | j l | call l | label l => simp +decide [tokens, hname l rfl]
    | ret | comment => simp +decide [tokens]
  have hafter : (a.tokens.all fun t => t.after.toList.all isSeparator) = true := by
    cases a <;> simp [tokens, isSeparator]
  exact fun t ht => ⟨hword t ht, List.all_eq_true.1 hafter t ht⟩

/-- No row but that of a comment holds a newline or shows as a comment. -/
theorem row_of_symbols {a : Asm} (hsymbol : ∀ l ∈ a.mention?, l.IsSymbol) (hcomment : a.isComment = false) :
    '\n' ∉ a.row ∧ isRemark a.row = false := by
  have hrow : ∀ c, isWordChar c = false → isSeparator c = false → c ∉ a.row := by
    intro c hword hsep
    have htext : c ∉ a.text.toList := toList_text hcomment ▸ notMem_spell (formed_tokens hsymbol) hword hsep
    have hmargin : "    ".toList.all isSeparator = true := by decide
    by_cases hlabel : ∃ l, a = label l
    · obtain ⟨l, rfl⟩ := hlabel
      rw [row_label]
      exact htext
    · rw [row_of_ne_label fun l hl => hlabel ⟨l, hl⟩, List.mem_append]
      exact fun hm => hm.elim (fun hm => by simp [List.all_eq_true.1 hmargin c hm] at hsep) htext
  refine ⟨hrow '\n' rfl rfl, Bool.eq_false_iff.2 fun hremark => hrow '#' rfl rfl ?_⟩
  exact (List.isPrefixOf_iff_prefix.1 hremark).subset (by decide)

/-- The first line of a comment shows as one, whatever its text; the lines after it are those of the text. -/
theorem splitOn_row_comment (text : String) : ∃ first rest, text.toList.splitOn '\n' = first :: rest ∧
    (comment text).row.splitOn '\n' = ("    # ".toList ++ first) :: rest := by
  obtain ⟨first, rest, hsplit⟩ := List.exists_cons_of_ne_nil (List.splitOn_ne_nil '\n' text.toList)
  refine ⟨first, rest, hsplit, ?_⟩
  rw [row_comment, splitOn_append (by decide), hsplit]
  rfl

/-! ### Comments and the lines around them -/

theorem lines_listing_cons (a : Asm) (code : List Asm) :
    lines (listing (a :: code)).toList = a.row.splitOn '\n' ++ lines (listing code).toList := by
  rw [toList_listing, toList_listing, lines_unlines, lines_unlines]
  rfl

/-- The lines of a listing that do not show as comments. -/
def plainLines (code : List Asm) : List (List Char) :=
  (lines (listing code).toList).filter fun line => !isRemark line

theorem plainLines_comment (text : String) (code : List Asm) : plainLines (comment text :: code) =
    ((text.toList.splitOn '\n').tail.filter fun line => !isRemark line) ++ plainLines code := by
  obtain ⟨first, rest, hsplit, hrow⟩ := splitOn_row_comment text
  rw [plainLines, lines_listing_cons, List.filter_append, hrow, hsplit,
    List.filter_cons_of_neg (by rw [isRemark_comment]; decide)]
  rfl

section

variable {a : Asm} (hsymbol : ∀ l ∈ a.mention?, l.IsSymbol) (hcomment : a.isComment = false) (code : List Asm)
include hsymbol hcomment

theorem lines_listing_code : lines (listing (a :: code)).toList = a.row :: lines (listing code).toList := by
  rw [lines_listing_cons, List.splitOn_eq_singleton (row_of_symbols hsymbol hcomment).1]
  rfl

theorem plainLines_code : plainLines (a :: code) = a.row :: plainLines code := by
  rw [plainLines, lines_listing_code hsymbol hcomment,
    List.filter_cons_of_pos (by simp [(row_of_symbols hsymbol hcomment).2])]
  rfl

end

theorem uncommented_comment (text : String) (code : List Asm) : uncommented (comment text :: code) = uncommented code :=
  rfl

theorem uncommented_code {a : Asm} (h : a.isComment = false) (code : List Asm) :
    uncommented (a :: code) = a :: uncommented code := List.filter_cons_of_pos (by simp [h])

/-- Comments can add lines that do not show as comments, and take none away. -/
theorem length_le_plainLines {code : List Asm} (hsymbol : ∀ a ∈ code, ∀ l ∈ a.mention?, l.IsSymbol) :
    (lines (listing (uncommented code)).toList).length ≤ (plainLines code).length := by
  induction code with
  | nil => exact Nat.le_refl _
  | cons a code ih =>
    obtain ⟨ha, hcode⟩ := List.forall_mem_cons.1 hsymbol
    have hle := ih hcode
    cases hcomment : a.isComment with
    | true =>
      obtain ⟨text, rfl⟩ := exists_comment hcomment
      rw [uncommented_comment, plainLines_comment, List.length_append]
      omega
    | false =>
      rw [uncommented_code hcomment, lines_listing_code ha hcomment, plainLines_code ha hcomment]
      exact Nat.succ_le_succ hle

/-- **Where a comment becomes code.**  In code whose labels are symbols, the lines that do not show as comments are the
lines of the code without its comments if and only if every line of a comment's text but the first has four spaces and
a `#` in front by itself.  So it is if no comment has a newline in it; but a comment whose text is `x`, a newline and
`ret` adds an instruction. -/
theorem comments_contained_iff {code : List Asm} (hsymbol : ∀ a ∈ code, ∀ l ∈ a.mention?, l.IsSymbol) :
    plainLines code = lines (listing (uncommented code)).toList ↔
      ∀ text, comment text ∈ code → ∀ line ∈ (text.toList.splitOn '\n').tail, isRemark line = true := by
  induction code with
  | nil => exact ⟨fun _ text h => absurd h List.not_mem_nil, fun _ => rfl⟩
  | cons a code ih =>
    obtain ⟨ha, hcode⟩ := List.forall_mem_cons.1 hsymbol
    cases hcomment : a.isComment with
    | true =>
      obtain ⟨text, rfl⟩ := exists_comment hcomment
      -- the lines after the comment are no fewer than they should be, so none may come from the comment
      have hle := length_le_plainLines hcode
      have hsplit : ∀ strays : List (List Char), strays ++ plainLines code = lines (listing (uncommented code)).toList ↔
          strays = [] ∧ plainLines code = lines (listing (uncommented code)).toList := by
        intro strays
        refine ⟨fun h => ?_, fun ⟨hnil, h⟩ => by rw [hnil, List.nil_append, h]⟩
        have hlen := congrArg List.length h
        rw [List.length_append] at hlen
        have hnil : strays = [] := List.length_eq_zero_iff.1 (by omega)
        rw [hnil, List.nil_append] at h
        exact ⟨hnil, h⟩
      rw [uncommented_comment, plainLines_comment, hsplit, ih hcode, List.filter_eq_nil_iff]
      simp only [List.mem_cons, comment.injEq, or_imp, forall_and, forall_eq, Bool.not_eq_true', Bool.not_eq_false]
    | false =>
      have hmem : ∀ text, comment text ∈ a :: code ↔ comment text ∈ code := by
        intro text
        have hne : comment text ≠ a := by
          rintro rfl
          simp [isComment] at hcomment
        simp [hne]
      simp only [uncommented_code hcomment, lines_listing_code ha hcomment, plainLines_code ha hcomment, hmem,
        List.cons.injEq, true_and, ih hcode]

/-- Code with a comment whose text has a second line. -/
def breaking : List Asm := [.label ⟨"f"⟩, .comment "x\n    ret", .li .a0 1, .ret]

/-- The second line is one more return. -/
theorem comments_contained_iff_breaking : (∀ a ∈ breaking, ∀ l ∈ a.mention?, l.IsSymbol) ∧
    plainLines breaking ≠ lines (listing (uncommented breaking)).toList := by
  have hsymbol : ∀ a ∈ breaking, ∀ l ∈ a.mention?, l.IsSymbol := by decide
  refine ⟨hsymbol, fun h => ?_⟩
  have hremark := (comments_contained_iff hsymbol).1 h "x\n    ret" (by decide) "    ret".toList (by decide)
  exact absurd hremark (by decide)

end Asm

end ThreeAddress
