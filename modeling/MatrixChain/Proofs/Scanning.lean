import MatrixChain.Expr.Infix

/-!
# Scanning

A text as a sequence of tokens. Separators end words: a blank is nothing by itself, while brackets and operators are
tokens of their own. What stands between separators is a word. A notation may do without some of the separators, whose
characters then belong to words. Tokens are scanned back from their text where words are set apart.
-/

namespace MatrixChain
namespace InfixToken

def ofSeparator : Char → List InfixToken
  | '(' => [.opening]
  | ')' => [.closing]
  | '*' => [.times]
  | '+' => [.plus]
  | _ => []

def word : List Char → List InfixToken
  | [] => []
  | chars => [.atom (String.ofList chars)]

/-- The tokens of a text that goes on from the characters `pending` of a word. -/
def scanFrom (separators : List Char) (pending : List Char) : List Char → List InfixToken
  | [] => word pending
  | c :: rest =>
    if c ∈ separators then word pending ++ (ofSeparator c ++ scanFrom separators [] rest)
    else scanFrom separators (pending ++ [c]) rest

def scan (separators : List Char) (text : String) : List InfixToken :=
  scanFrom separators [] text.toList

def IsWord (separators : List Char) (text : String) : Prop :=
  text ≠ "" ∧ ∀ c ∈ text.toList, c ∉ separators

-- by the characters of the text: instance search may come upon one that goes through all characters there are
instance (separators : List Char) (text : String) : Decidable (IsWord separators text) :=
  @instDecidableAnd _ _ inferInstance (List.decidableBAll (fun c => c ∉ separators) text.toList)

theorem IsWord.of_subset {separators separators' : List Char} (h : separators' ⊆ separators) {text : String}
    (word : IsWord separators text) : IsWord separators' text :=
  ⟨word.1, fun c hc hmem => word.2 c hc (h hmem)⟩

section Scanning

variable {separators : List Char}

/-- No word goes on with this text. -/
def EndsWord (separators : List Char) (rest : List Char) : Prop :=
  ∀ c ∈ rest.head?, c ∈ separators

theorem scanFrom_of_endsWord {rest : List Char} (h : EndsWord separators rest) (pending : List Char) :
    scanFrom separators pending rest = word pending ++ scanFrom separators [] rest := by
  cases rest with
  | nil => rw [scanFrom, scanFrom, word, List.append_nil]
  | cons c rest =>
    have hc : c ∈ separators := h c rfl
    rw [scanFrom, scanFrom, if_pos hc, if_pos hc]
    rfl

theorem scanFrom_append {chars : List Char} (h : ∀ c ∈ chars, c ∉ separators) (pending rest : List Char) :
    scanFrom separators pending (chars ++ rest) = scanFrom separators (pending ++ chars) rest := by
  induction chars generalizing pending with
  | nil => rw [List.nil_append, List.append_nil]
  | cons c chars ih =>
    rw [List.cons_append, scanFrom, if_neg (h c List.mem_cons_self), ih fun c' hc' => h c' (List.mem_cons_of_mem c hc'),
      List.append_assoc, List.singleton_append]

theorem scanFrom_separators {chars : List Char} (h : ∀ c ∈ chars, c ∈ separators) (rest : List Char) :
    scanFrom separators [] (chars ++ rest) = chars.flatMap ofSeparator ++ scanFrom separators [] rest := by
  induction chars with
  | nil => rfl
  | cons c chars ih =>
    rw [List.cons_append, scanFrom, if_pos (h c List.mem_cons_self), ih fun c' hc' => h c' (List.mem_cons_of_mem c hc'),
      List.flatMap_cons, List.append_assoc]
    rfl

def spelled (tokens : List InfixToken) : List Char :=
  tokens.flatMap fun token => token.text.toList

@[simp] theorem spelled_append (tokens tokens' : List InfixToken) :
    spelled (tokens ++ tokens') = spelled tokens ++ spelled tokens' :=
  List.flatMap_append

@[simp] theorem spelled_cons (token : InfixToken) (tokens : List InfixToken) :
    spelled (token :: tokens) = token.text.toList ++ spelled tokens :=
  List.flatMap_cons

/-- Tokens are scanned back from their text, unless a word goes on behind it. -/
def ScansBack (separators : List Char) (tokens : List InfixToken) : Prop :=
  ∀ rest, EndsWord separators rest →
    scanFrom separators [] (spelled tokens ++ rest) = tokens ++ scanFrom separators [] rest

def Separates (separators : List Char) (token : InfixToken) : Prop :=
  (∀ c ∈ token.text.toList, c ∈ separators) ∧ token.text.toList.flatMap ofSeparator = [token]

instance (separators : List Char) (token : InfixToken) : Decidable (Separates separators token) :=
  @instDecidableAnd _ _ (List.decidableBAll (fun c => c ∈ separators) token.text.toList) inferInstance

theorem Separates.endsWord {token : InfixToken} (h : Separates separators token) (rest : List Char) :
    EndsWord separators (token.text.toList ++ rest) := by
  cases hchars : token.text.toList with
  | nil =>
    have hempty := h.2
    rw [hchars] at hempty
    cases hempty
  | cons c chars =>
    intro c' hc'
    obtain rfl := Option.some.inj hc'
    exact h.1 c (hchars ▸ List.mem_cons_self)

theorem scansBack_nil : ScansBack separators [] :=
  fun _ _ => rfl

theorem scansBack_atom {text : String} (h : IsWord separators text) : ScansBack separators [.atom text] := by
  intro rest hrest
  have hword : word text.toList = [.atom text] := by
    cases hchars : text.toList with
    | nil => exact absurd (String.toList_inj.1 hchars) h.1
    | cons c chars =>
      have hcons : word (c :: chars) = [.atom (String.ofList (c :: chars))] := rfl
      rw [hcons, ← hchars, String.ofList_toList]
  have hspelled : spelled [.atom text] = text.toList := List.flatMap_singleton ..
  rw [hspelled, scanFrom_append h.2, List.nil_append, scanFrom_of_endsWord hrest, hword]

/-- A separator keeps the tokens on both sides of it apart. -/
theorem ScansBack.separated {token : InfixToken} (h : Separates separators token) {left right : List InfixToken}
    (hl : ScansBack separators left) (hr : ScansBack separators right) :
    ScansBack separators (left ++ token :: right) := by
  intro rest hrest
  rw [spelled_append, spelled_cons, List.append_assoc, List.append_assoc, hl _ (h.endsWord _),
    scanFrom_separators h.1, h.2, hr rest hrest, List.append_assoc, List.singleton_append, List.cons_append]

theorem ScansBack.enclosed (opening : Separates separators .opening) (closing : Separates separators .closing)
    {tokens : List InfixToken} (h : ScansBack separators tokens) :
    ScansBack separators (.opening :: tokens ++ [.closing]) := by
  have hopened : ScansBack separators (.opening :: tokens) := scansBack_nil.separated opening h
  exact hopened.separated closing scansBack_nil

theorem ScansBack.scan {tokens : List InfixToken} (h : ScansBack separators tokens) {text : String}
    (spelling : text.toList = spelled tokens) : scan separators text = tokens := by
  have hall := h [] fun c hc => nomatch hc
  rw [List.append_nil] at hall
  rw [InfixToken.scan, spelling, hall]
  exact List.append_nil tokens

end Scanning

end InfixToken
end MatrixChain
