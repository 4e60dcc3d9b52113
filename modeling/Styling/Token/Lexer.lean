import Styling.Text.Classes
import Styling.Text.Hex
import Styling.Token

/-! # From text to tokens

Reading never fails: malformed text gives the most specific token that can still be named. Each
reader takes a text and returns what it read with a suffix of that text, so the lexemes of a
text tile it. Comments are tokens. Main statements: what a reader leaves is a suffix of its
text, `scan` consumes at least one character, and the lexemes concatenate to the text.
-/
namespace Styling
namespace Lexer

/-- A backslash that no line end follows; at the end of the text it stands for U+FFFD. -/
def startsEscape : List Char → Bool
  | '\\' :: c :: _ => !isNewline c
  | ['\\'] => true
  | _ => false

def startsName : List Char → Bool
  | [] => false
  | c :: cs =>
    if c == '-' then cs.head?.any (fun d => isNameStart d || d == '-') || startsEscape cs
    else isNameStart c || startsEscape (c :: cs)

/-- An optional sign, then a digit or a point before a digit. -/
def startsNumber : List Char → Bool
  | [] => false
  | c :: cs =>
    if c == '+' || c == '-' then
      match cs with
      | '.' :: d :: _ => d.isDigit
      | d :: _ => d.isDigit
      | [] => false
    else if c == '.' then cs.head?.any Char.isDigit
    else c.isDigit

/-- The character with a given code; U+FFFD for zero and for codes that name none. -/
def codePoint (n : Nat) : Char :=
  if n = 0 then replacement else if n.isValidChar then Char.ofNat n else replacement

def dropBlank : List Char → List Char
  | c :: cs => if isBlank c then cs else c :: cs
  | [] => []

/-- The character that follows a backslash: up to six hexadecimal digits and one blank, or the
next character itself. -/
def escaped : List Char → Char × List Char
  | [] => (replacement, [])
  | c :: cs =>
    if isHexDigit c then
      let more := (cs.take 5).takeWhile isHexDigit
      (codePoint (hexValue (c :: more)), dropBlank (cs.drop more.length))
    else (c, cs)

theorem dropBlank_suffix (cs : List Char) : dropBlank cs <:+ cs := by
  unfold dropBlank
  split
  · split
    · exact List.suffix_cons _ _
    · exact List.suffix_refl _
  · exact List.suffix_refl _

theorem escaped_suffix (cs : List Char) : (escaped cs).2 <:+ cs := by
  cases cs with
  | nil => exact List.suffix_refl _
  | cons c cs =>
    unfold escaped
    dsimp only
    split
    · exact ((dropBlank_suffix _).trans (List.drop_suffix _ _)).trans (List.suffix_cons _ _)
    · exact List.suffix_cons _ _

theorem escaped_length_le (cs : List Char) : (escaped cs).2.length ≤ cs.length :=
  (escaped_suffix cs).length_le

def name : List Char → List Char × List Char
  | [] => ([], [])
  | c :: cs =>
    if isNameChar c then
      let rest := name cs
      (c :: rest.1, rest.2)
    else if startsEscape (c :: cs) then
      let e := escaped cs
      let rest := name e.2
      (e.1 :: rest.1, rest.2)
    else ([], c :: cs)
termination_by cs => cs.length
decreasing_by
  · simp
  · have := escaped_length_le cs
    simp only [List.length_cons]
    omega

theorem name_suffix (cs : List Char) : (name cs).2 <:+ cs := by
  fun_induction name cs with
  | case1 => exact List.suffix_refl _
  | case2 c cs _ rest ih => exact ih.trans (List.suffix_cons _ _)
  | case3 c cs _ _ e rest ih =>
    exact (ih.trans (escaped_suffix cs)).trans (List.suffix_cons _ _)
  | case4 => exact List.suffix_refl _

theorem name_length_le (cs : List Char) : (name cs).2.length ≤ cs.length :=
  (name_suffix cs).length_le

def dropNewline : List Char → List Char
  | '\r' :: '\n' :: cs => cs
  | _ :: cs => cs
  | [] => []

theorem dropNewline_suffix (cs : List Char) : dropNewline cs <:+ cs := by
  unfold dropNewline
  split
  · exact (List.suffix_cons _ _).trans (List.suffix_cons _ _)
  · exact List.suffix_cons _ _
  · exact List.suffix_refl _

/-- The rest of a string after its opening quote; `none` if a line end breaks it off. -/
def quoted (quote : Char) : List Char → Option (List Char) × List Char
  | [] => (some [], [])
  | c :: cs =>
    if c == quote then (some [], cs)
    else if isNewline c then (none, c :: cs)
    else if c == '\\' then
      match cs with
      | [] => (some [], [])
      | d :: ds =>
        if isNewline d then quoted quote (dropNewline (d :: ds))
        else
          let e := escaped (d :: ds)
          let rest := quoted quote e.2
          (rest.1.map (e.1 :: ·), rest.2)
    else
      let rest := quoted quote cs
      (rest.1.map (c :: ·), rest.2)
termination_by cs => cs.length
decreasing_by
  · have := (dropNewline_suffix (d :: ds)).length_le
    simp only [List.length_cons] at *
    omega
  · have := escaped_length_le (d :: ds)
    simp only [List.length_cons] at *
    omega
  · simp

theorem quoted_suffix (q : Char) (cs : List Char) : (quoted q cs).2 <:+ cs := by
  fun_induction quoted q cs with
  | case1 => exact List.suffix_refl _
  | case2 => exact List.suffix_cons _ _
  | case3 => exact List.suffix_refl _
  | case4 => exact List.nil_suffix
  | case5 c _ _ _ d ds _ ih => exact (ih.trans (dropNewline_suffix _)).trans (List.suffix_cons _ _)
  | case6 c _ _ _ d ds _ e rest ih => exact (ih.trans (escaped_suffix _)).trans (List.suffix_cons _ _)
  | case7 c cs _ _ _ rest ih => exact ih.trans (List.suffix_cons _ _)

def numeral (cs : List Char) : List Char × List Char :=
  let sign := (cs.take 1).filter (fun c => c == '+' || c == '-')
  let cs := cs.drop sign.length
  let whole := cs.takeWhile Char.isDigit
  let cs := cs.dropWhile Char.isDigit
  match cs with
  | '.' :: d :: ds =>
    if d.isDigit then
      (sign ++ whole ++ '.' :: (d :: ds).takeWhile Char.isDigit, (d :: ds).dropWhile Char.isDigit)
    else (sign ++ whole, cs)
  | _ => (sign ++ whole, cs)

theorem numeral_suffix (cs : List Char) : (numeral cs).2 <:+ cs := by
  have h (n : Nat) : (cs.drop n).dropWhile Char.isDigit <:+ cs :=
    (List.dropWhile_suffix _).trans (List.drop_suffix _ _)
  unfold numeral
  dsimp only
  split
  next d ds heq =>
    have hd : d :: ds <:+ cs := (List.suffix_cons '.' _).trans (heq ▸ h _)
    split
    · exact (List.dropWhile_suffix _).trans hd
    · exact h _
  · exact h _

def numeric (cs : List Char) : Kind × List Char :=
  let n := numeral cs
  match n.2 with
  | '%' :: rest => (.percentage (String.ofList n.1), rest)
  | _ =>
    if startsName n.2 then
      let unit := name n.2
      (.dimension (String.ofList n.1) (String.ofList unit.1), unit.2)
    else (.number (String.ofList n.1), n.2)

theorem numeric_suffix (cs : List Char) : (numeric cs).2 <:+ cs := by
  have h := numeral_suffix cs
  unfold numeric
  dsimp only
  split
  next rest heq => exact (heq ▸ List.suffix_cons '%' rest).trans h
  · split
    · exact (name_suffix _).trans h
    · exact h

def trimEnd (cs : List Char) : List Char := (cs.reverse.dropWhile isBlank).reverse

/-- The text of a quoted address up to its closing quote. Line ends are kept. -/
def urlQuoted (quote : Char) : List Char → List Char × List Char
  | [] => ([], [])
  | c :: cs =>
    if c == quote then ([], cs)
    else if c == '\\' && !cs.isEmpty then
      let e := escaped cs
      let rest := urlQuoted quote e.2
      (e.1 :: rest.1, rest.2)
    else
      let rest := urlQuoted quote cs
      (c :: rest.1, rest.2)
termination_by cs => cs.length
decreasing_by
  · have := escaped_length_le cs
    simp only [List.length_cons]
    omega
  · simp

theorem urlQuoted_suffix (q : Char) (cs : List Char) : (urlQuoted q cs).2 <:+ cs := by
  fun_induction urlQuoted q cs with
  | case1 => exact List.suffix_refl _
  | case2 => exact List.suffix_cons _ _
  | case3 c cs _ _ e rest ih => exact (ih.trans (escaped_suffix cs)).trans (List.suffix_cons _ _)
  | case4 c cs _ _ rest ih => exact ih.trans (List.suffix_cons _ _)

def urlPlain : List Char → List Char × List Char
  | [] => ([], [])
  | c :: cs =>
    if c == ')' then ([], cs)
    else if startsEscape (c :: cs) then
      let e := escaped cs
      let rest := urlPlain e.2
      (e.1 :: rest.1, rest.2)
    else
      let rest := urlPlain cs
      (c :: rest.1, rest.2)
termination_by cs => cs.length
decreasing_by
  · have := escaped_length_le cs
    simp only [List.length_cons]
    omega
  · simp

theorem urlPlain_suffix (cs : List Char) : (urlPlain cs).2 <:+ cs := by
  fun_induction urlPlain cs with
  | case1 => exact List.suffix_refl _
  | case2 => exact List.suffix_cons _ _
  | case3 c cs _ _ e rest ih => exact (ih.trans (escaped_suffix cs)).trans (List.suffix_cons _ _)
  | case4 c cs _ _ rest ih => exact ih.trans (List.suffix_cons _ _)

/-- An address after `url(`. Whatever stands between a closing quote and `)` is dropped. -/
def url (cs : List Char) : List Char × List Char :=
  let cs := cs.dropWhile isBlank
  match cs with
  | c :: rest =>
    if isQuote c then
      let body := urlQuoted c rest
      (body.1, (body.2.dropWhile (· != ')')).drop 1)
    else
      let body := urlPlain cs
      (trimEnd body.1, body.2)
  | [] => ([], [])

theorem url_suffix (cs : List Char) : (url cs).2 <:+ cs := by
  have h : cs.dropWhile isBlank <:+ cs := List.dropWhile_suffix _
  unfold url
  dsimp only
  split
  next c rest heq =>
    rw [heq] at h
    split
    · exact ((((List.drop_suffix _ _).trans (List.dropWhile_suffix _)).trans
        (urlQuoted_suffix _ _)).trans (List.suffix_cons _ _)).trans h
    · rw [heq]
      exact (urlPlain_suffix _).trans h
  · exact List.nil_suffix

def named (cs : List Char) : Kind × List Char :=
  let n := name cs
  match n.2 with
  | '(' :: rest =>
    if sameWord n.1 ['u', 'r', 'l'] then
      let address := url rest
      (.url (String.ofList address.1), address.2)
    else (.function (String.ofList n.1), rest)
  | _ => (.ident (String.ofList n.1), n.2)

theorem named_suffix (cs : List Char) : (named cs).2 <:+ cs := by
  have h := name_suffix cs
  unfold named
  dsimp only
  split
  next rest heq =>
    have hr : rest <:+ cs := (heq ▸ List.suffix_cons '(' rest).trans h
    split
    · exact (url_suffix _).trans hr
    · exact hr
  · exact h

def comment : List Char → List Char × List Char
  | '*' :: '/' :: cs => ([], cs)
  | c :: cs =>
    let rest := comment cs
    (c :: rest.1, rest.2)
  | [] => ([], [])

theorem comment_suffix (cs : List Char) : (comment cs).2 <:+ cs := by
  fun_induction comment cs with
  | case1 cs => exact (List.suffix_cons _ _).trans (List.suffix_cons _ _)
  | case2 c cs _ rest ih => exact ih.trans (List.suffix_cons _ _)
  | case3 => exact List.suffix_refl _

def marked (c : Char) (cs : List Char) : Kind × List Char :=
  match c, cs with
  | '/', '*' :: rest =>
    let body := comment rest
    (.comment (String.ofList body.1), body.2)
  | '#', _ =>
    if cs.head?.any isNameChar || startsEscape cs then
      let n := name cs
      (.hash (String.ofList n.1) (if startsName cs then .id else .unrestricted), n.2)
    else (.delim '#', cs)
  | '@', _ =>
    if startsName cs then
      let n := name cs
      (.atKeyword (String.ofList n.1), n.2)
    else (.delim '@', cs)
  | '<', '!' :: '-' :: '-' :: rest => (.cdo, rest)
  | '~', '=' :: rest => (.attrMatch .word, rest)
  | '|', '=' :: rest => (.attrMatch .dash, rest)
  | '^', '=' :: rest => (.attrMatch .beginning, rest)
  | '$', '=' :: rest => (.attrMatch .ending, rest)
  | '*', '=' :: rest => (.attrMatch .substring, rest)
  | ':', _ => (.colon, cs)
  | ';', _ => (.semicolon, cs)
  | ',', _ => (.comma, cs)
  | '(', _ => (.opening .round, cs)
  | ')', _ => (.closing .round, cs)
  | '[', _ => (.opening .square, cs)
  | ']', _ => (.closing .square, cs)
  | '\x7b', _ => (.opening .curly, cs)
  | '\x7d', _ => (.closing .curly, cs)
  | _, _ => (.delim c, cs)

theorem marked_suffix (c : Char) (cs : List Char) : (marked c cs).2 <:+ cs := by
  unfold marked
  split <;> try exact List.suffix_refl _
  · exact (comment_suffix _).trans (List.suffix_cons _ _)
  · split
    · exact name_suffix _
    · exact List.suffix_refl _
  · split
    · exact name_suffix _
    · exact List.suffix_refl _
  · exact ((List.suffix_cons _ _).trans (List.suffix_cons _ _)).trans (List.suffix_cons _ _)
  all_goals exact List.suffix_cons _ _

def scan (c : Char) (cs : List Char) : Kind × List Char :=
  if isBlank c then (.blank, cs.dropWhile isBlank)
  else if isQuote c then
    let body := quoted c cs
    (match body.1 with
      | some value => .string (String.ofList value)
      | none => .badString, body.2)
  else if startsNumber (c :: cs) then numeric (c :: cs)
  else if c == '-' && ['-', '>'].isPrefixOf cs then (.cdc, cs.drop 2)
  else if startsName (c :: cs) then named (c :: cs)
  else marked c cs

theorem numeral_length_lt {c : Char} {cs : List Char} (h : startsNumber (c :: cs) = true) :
    (numeral (c :: cs)).2.length < (c :: cs).length := by
  have le (l : List Char) : (l.dropWhile Char.isDigit).length ≤ l.length :=
    (List.dropWhile_suffix _).length_le
  by_cases hs : (c == '+' || c == '-') = true
  · have h1 : ((c :: cs).take 1).filter (fun c => c == '+' || c == '-') = [c] := by simp [hs]
    have hd : (cs.dropWhile Char.isDigit).length ≤ cs.length := le cs
    simp only [numeral, h1, List.length_singleton, List.drop_succ_cons, List.drop_zero]
    split
    next d ds heq =>
      have hds : ('.' :: d :: ds).length ≤ cs.length := heq ▸ hd
      have := le (d :: ds)
      split <;> simp only [List.length_cons] at * <;> omega
    · simp only [List.length_cons]
      omega
  · have h1 : ((c :: cs).take 1).filter (fun c => c == '+' || c == '-') = [] := by simp [hs]
    simp only [numeral, h1, List.length_nil, List.drop_zero]
    simp only [startsNumber, hs] at h
    by_cases hp : (c == '.') = true
    · have hc : c = '.' := by simpa using hp
      subst hc
      have hn : Char.isDigit '.' = false := by decide
      cases cs with
      | nil => simp at h
      | cons d ds =>
        have hdig : d.isDigit = true := by simpa using h
        have := le (d :: ds)
        simp only [List.dropWhile_cons, hn, Bool.false_eq_true, if_false, hdig, if_true] at this ⊢
        simp only [List.length_cons] at *
        omega
    · have hdig : c.isDigit = true := by simpa [hp] using h
      have hd : ((c :: cs).dropWhile Char.isDigit).length ≤ cs.length := by
        simpa [List.dropWhile_cons, hdig] using le cs
      split
      next d ds heq =>
        have hds : ('.' :: d :: ds).length ≤ cs.length := heq ▸ hd
        have := le (d :: ds)
        split <;> simp only [List.length_cons] at * <;> omega
      · simp only [List.length_cons]
        omega

theorem numeric_length_lt {c : Char} {cs : List Char} (h : startsNumber (c :: cs) = true) :
    (numeric (c :: cs)).2.length < (c :: cs).length := by
  have hn := numeral_length_lt h
  unfold numeric
  dsimp only
  split
  next rest heq =>
    rw [heq, List.length_cons] at hn
    dsimp only
    omega
  · split
    · exact Nat.lt_of_le_of_lt (name_length_le _) hn
    · exact hn

theorem name_length_lt {c : Char} {cs : List Char} (h : startsName (c :: cs) = true) :
    (name (c :: cs)).2.length < (c :: cs).length := by
  rw [name]
  split
  · exact Nat.lt_succ_of_le (name_length_le cs)
  · split
    · exact Nat.lt_succ_of_le (Nat.le_trans (name_length_le _) (escaped_length_le cs))
    · next hc he =>
      simp only [startsName] at h
      split at h
      next hm =>
        have : c = '-' := by simpa using hm
        subst this
        exact absurd (by decide) hc
      · have hs : isNameStart c = true := by simpa [he] using h
        exact absurd (isNameChar_of_isNameStart hs) hc

theorem named_length_lt {c : Char} {cs : List Char} (h : startsName (c :: cs) = true) :
    (named (c :: cs)).2.length < (c :: cs).length := by
  have hn := name_length_lt h
  unfold named
  dsimp only
  split
  next rest heq =>
    rw [heq, List.length_cons] at hn
    have := (url_suffix rest).length_le
    split <;> dsimp only <;> omega
  · exact hn

theorem scan_length_le (c : Char) (cs : List Char) : (scan c cs).2.length ≤ cs.length := by
  unfold scan
  split
  · exact (List.dropWhile_suffix _).length_le
  split
  · exact (quoted_suffix c cs).length_le
  split
  next h => exact Nat.le_of_lt_succ (numeric_length_lt h)
  split
  · exact (List.drop_suffix _ _).length_le
  split
  next h => exact Nat.le_of_lt_succ (named_length_lt h)
  · exact (marked_suffix c cs).length_le

theorem scan_suffix (c : Char) (cs : List Char) : (scan c cs).2 <:+ c :: cs := by
  have hc := List.suffix_cons c cs
  unfold scan
  split
  · exact (List.dropWhile_suffix _).trans hc
  split
  · exact (quoted_suffix c cs).trans hc
  split
  · exact numeric_suffix _
  split
  · exact (List.drop_suffix _ _).trans hc
  split
  · exact named_suffix _
  · exact (marked_suffix c cs).trans hc

structure Lexeme where
  kind : Kind
  text : List Char
  deriving DecidableEq, Repr

def lexemes : List Char → List Lexeme
  | [] => []
  | c :: cs =>
    let next := scan c cs
    ⟨next.1, (c :: cs).take (cs.length + 1 - next.2.length)⟩ :: lexemes next.2
termination_by cs => cs.length
decreasing_by exact Nat.lt_succ_of_le (scan_length_le c cs)

/-- What a lexeme takes stands before the rest of the text. -/
theorem take_append_scan (c : Char) (cs : List Char) :
    (c :: cs).take (cs.length + 1 - (scan c cs).2.length) ++ (scan c cs).2 = c :: cs := by
  have hrest := List.suffix_iff_eq_drop.mp (scan_suffix c cs)
  have hsplit := List.take_append_drop (cs.length + 1 - (scan c cs).2.length) (c :: cs)
  rw [List.length_cons] at hrest
  rwa [← hrest] at hsplit

/-- Nothing of the text is lost or read twice. -/
theorem flatten_lexemes (cs : List Char) : ((lexemes cs).map Lexeme.text).flatten = cs := by
  fun_induction lexemes cs with
  | case1 => rfl
  | case2 c cs next ih =>
    rw [List.map_cons, List.flatten_cons, ih]
    exact take_append_scan c cs

def place (offset line : Nat) : List Lexeme → List Token
  | [] => []
  | l :: ls =>
    ⟨l.kind, offset, offset + l.text.length, line⟩ ::
      place (offset + l.text.length) (line + l.text.count '\n') ls

end Lexer

def tokens (cs : List Char) : List Token := Lexer.place 0 1 (Lexer.lexemes cs)

def endToken (cs : List Char) : Token := ⟨.eof, cs.length, cs.length, 1 + cs.count '\n'⟩

def tokenize (text : String) : List Token := tokens text.toList ++ [endToken text.toList]

def sourceText (text : String) (start stop : Nat) : String :=
  String.ofList ((text.toList.take stop).drop start)

end Styling
