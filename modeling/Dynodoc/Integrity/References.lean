import Dynodoc.Integrity.Expr

/-! The references of an expression, found in its text. The integrity pass does not read them
off the parsed tree but scans the text for them. -/
namespace Dynodoc
open Std (ExtTreeSet)
open Loop List

variable {name : String} {p : Parser} {c : Char} {e : Expr} {args : List Expr} {names : List String}

namespace Expr

/-- What stands between `${` and the next closing brace, from a place in the text on;
the places that `skip` counts belong to a reference found before. -/
def rawRefs : (skip : Nat) → List Char → List (List Char)
  | _, [] => []
  | skip + 1, _ :: rest => rawRefs skip rest
  | 0, c :: rest =>
    if c = '$' ∧ rest.head? = some '{' then
      let name := (rest.drop 1).takeWhile (· ≠ '}')
      if (rest.drop 1).length ≤ name.length then []
      else name :: rawRefs (name.length + 2) rest
    else rawRefs 0 rest

def addRef (refs : List String) (name : String) : List String :=
  if name ≠ "" ∧ name ∉ refs then refs ++ [name] else refs

def extractVarRefs (expr : String) : List String :=
  ((rawRefs 0 expr.toList).map fun name => String.ofList (trim name)).foldl addRef []

theorem mem_addRef {first : String} {refs : List String} :
    name ∈ addRef refs first ↔ name ∈ refs ∨ name ≠ "" ∧ name = first := by
  rw [addRef]
  split <;> grind

theorem mem_foldl_addRef {refs : List String} :
    name ∈ names.foldl addRef refs ↔ name ∈ refs ∨ name ≠ "" ∧ name ∈ names := by
  induction names generalizing refs with
  | nil => simp
  | cons first names ih =>
    rw [foldl_cons, ih, mem_addRef, mem_cons]
    tauto

theorem mem_extractVarRefs {expr : String} : name ∈ extractVarRefs expr ↔
      name ≠ "" ∧ ∃ raw ∈ rawRefs 0 expr.toList, String.ofList (trim raw) = name := by
  rw [extractVarRefs, mem_foldl_addRef]
  simp

theorem rawRefs_append (skipped rest : List Char) :
    rawRefs skipped.length (skipped ++ rest) = rawRefs 0 rest := by
  induction skipped with
  | nil => rfl
  | cons c skipped ih => exact ih

theorem rawRefs_plain (plain : c ≠ '$') (rest : List Char) :
    rawRefs 0 (c :: rest) = rawRefs 0 rest := by
  rw [rawRefs, if_neg fun found => plain found.1]

theorem rawRefs_dollar (rest : List Char) (lone : rest.head? ≠ some '{') :
    rawRefs 0 ('$' :: rest) = rawRefs 0 rest := by
  rw [rawRefs, if_neg fun found => lone found.2]

theorem takeWhile_close {close : Char} {name : List Char} (within : close ∉ name) (rest : List Char) :
    (name ++ close :: rest).takeWhile (· ≠ close) = name := by
  rw [takeWhile_append_of_pos]
  · simp
  intro c mem
  simpa using fun same : c = close => within (same ▸ mem)

theorem rawRefs_ref {name : List Char} (within : '}' ∉ name) (rest : List Char) :
    rawRefs 0 ('$' :: '{' :: name ++ '}' :: rest) = name :: rawRefs 0 rest := by
  have skip := rawRefs_append ('{' :: name ++ ['}']) rest
  simp only [append_assoc, length_append] at skip
  simp only [cons_append, rawRefs, head?_cons, and_self, if_true, drop_one,
    tail_cons, takeWhile_close within, length_append, length_cons]
  rw [if_neg (by omega)]
  exact congrArg _ skip

/-- A `${` that no brace closes. -/
def Unclosed (before : List Char) : Prop := ∃ a b, before = a ++ '$' :: '{' :: b ∧ '}' ∉ b

/-- The scan finds a reference unless it stands behind a `${` that no brace closes. -/
theorem mem_rawRefs {before name : List Char} (within : '}' ∉ name) (rest : List Char)
    (closed : ¬ Unclosed before) : name ∈ rawRefs 0 (before ++ '$' :: '{' :: name ++ '}' :: rest) := by
  -- by the length of the text before, since the scan jumps behind each name that it finds there
  induction size : before.length using Nat.strong_induction_on generalizing before with
  | _ size' ih =>
  subst size
  have later {a b : List Char} (split : before = a ++ b) : ¬ Unclosed b := by
    rintro ⟨c, d, rfl, clear⟩
    exact closed ⟨a ++ c, d, by simp [split], clear⟩
  cases before with
  | nil =>
    rw [nil_append, rawRefs_ref within]
    exact mem_cons_self
  | cons c before =>
    have step (same : rawRefs 0 (c :: (before ++ '$' :: '{' :: name ++ '}' :: rest)) =
        rawRefs 0 (before ++ '$' :: '{' :: name ++ '}' :: rest)) :
        name ∈ rawRefs 0 (c :: before ++ '$' :: '{' :: name ++ '}' :: rest) := by
      rw [cons_append, cons_append, same]
      exact ih before.length (by simp) (later (a := [c]) rfl) rfl
    by_cases dollar : c = '$'
    · subst dollar
      cases before with
      | nil => exact step (rawRefs_dollar _ (by simp))
      | cons d before =>
        by_cases opening : d = '{'
        · subst opening
          have brace : '}' ∈ before := by
            by_contra clear
            exact closed ⟨[], before, rfl, clear⟩
          obtain ⟨other, after, rfl, clear⟩ := eq_append_cons_of_mem brace
          have found := ih after.length (by simp; omega) (later (a := '$' :: '{' :: other ++ ['}'])
            (by simp)) rfl
          have here := rawRefs_ref clear (after ++ '$' :: '{' :: name ++ '}' :: rest)
          simp only [append_assoc, cons_append] at found here ⊢
          rw [here]
          exact mem_cons_of_mem _ found
        · exact step (rawRefs_dollar _ (by simpa using opening))
    · exact step (rawRefs_plain dollar _)

def IsQuote (c : Char) : Prop := c = '\'' ∨ c = '"'

instance : Decidable (IsQuote c) := inferInstanceAs (Decidable (c = '\'' ∨ c = '"'))

/-- The references outside string literals, each with the text before it; the places that `skip`
counts belong to the literal or reference that was read last. -/
def refSpots : (skip : Nat) → (before : List Char) → List Char → List (List Char × List Char)
  | _, _, [] => []
  | skip + 1, before, c :: rest => refSpots skip (before ++ [c]) rest
  | 0, before, c :: rest =>
    if IsQuote c then refSpots ((rest.takeWhile (· ≠ c)).length + 1) (before ++ [c]) rest
    else if c = '$' ∧ rest.head? = some '{' then
      let name := (rest.drop 1).takeWhile (· ≠ '}')
      if (rest.drop 1).length ≤ name.length then []
      else (before, name) :: refSpots (name.length + 2) (before ++ [c]) rest
    else refSpots 0 (before ++ [c]) rest

theorem takeWhile_closed {close : Char} {l : List Char}
    (long : (l.takeWhile (· ≠ close)).length < l.length) :
    close ∉ l.takeWhile (· ≠ close) ∧ ∃ rest, l = l.takeWhile (· ≠ close) ++ close :: rest := by
  refine ⟨fun mem => by simpa using mem_takeWhile_imp mem, ?_⟩
  have split := takeWhile_append_dropWhile (p := (· ≠ close)) (l := l)
  cases left : l.dropWhile (· ≠ close) with
  | nil =>
    rw [left, append_nil] at split
    rw [split] at long
    omega
  | cons c rest =>
    have stop : c = close := by
      have head := head?_dropWhile_not (· ≠ close) l
      rw [left] at head
      simpa using head
    rw [left, stop] at split
    exact ⟨rest, split.symm⟩

theorem mem_refSpots {skip : Nat} {before l : List Char} {spot : List Char × List Char}
    (mem : spot ∈ refSpots skip before l) :
    '}' ∉ spot.2 ∧ ∃ rest, before ++ l = spot.1 ++ '$' :: '{' :: spot.2 ++ '}' :: rest := by
  fun_induction refSpots skip before l with
  | case1 => simp at mem
  | case2 skip before c rest ih => simpa using ih mem
  | case3 before c rest isQuote ih => simpa using ih mem
  | case4 => simp at mem
  | case5 before c rest notQuote opens name long ih =>
    rcases mem_cons.1 mem with rfl | mem
    · obtain ⟨rfl, opening⟩ := opens
      cases rest with
      | nil => simp at opening
      | cons d rest =>
        cases opening
        obtain ⟨within, tail, split⟩ := takeWhile_closed (not_le.1 long)
        exact ⟨within, tail, by simpa [name] using split⟩
    · simpa using ih mem
  | case6 before c rest notQuote plain ih => simpa using ih mem

theorem refSpots_append (skipped before rest : List Char) :
    refSpots skipped.length before (skipped ++ rest) = refSpots 0 (before ++ skipped) rest := by
  induction skipped generalizing before with
  | nil => simp
  | cons c skipped ih => simpa [refSpots] using ih (before ++ [c])

/-- Neither a quote nor the beginning of a reference. -/
def Plain (c : Char) : Prop := c ≠ '$' ∧ ¬ IsQuote c

instance : Decidable (Plain c) := inferInstanceAs (Decidable (_ ∧ _))

theorem refSpots_plain (plain : Plain c) (before rest : List Char) :
    refSpots 0 before (c :: rest) = refSpots 0 (before ++ [c]) rest := by
  rw [refSpots, if_neg plain.2, if_neg fun found => plain.1 found.1]

theorem refSpots_quoted (quote : IsQuote c) {content : List Char} (within : c ∉ content)
    (before rest : List Char) : refSpots 0 before (c :: content ++ c :: rest) =
      refSpots 0 (before ++ (c :: content ++ [c])) rest := by
  have skip := refSpots_append (content ++ [c]) (before ++ [c]) rest
  simp only [append_assoc, length_append, length_singleton, cons_append, nil_append] at skip ⊢
  rw [refSpots, if_pos quote, takeWhile_close within, skip]

theorem refSpots_ref {name : List Char} (within : '}' ∉ name) (before rest : List Char) :
    refSpots 0 before ('$' :: '{' :: name ++ '}' :: rest) =
      (before, name) :: refSpots 0 (before ++ ('$' :: '{' :: name ++ ['}'])) rest := by
  have skip := refSpots_append ('{' :: name ++ ['}']) (before ++ ['$']) rest
  simp only [append_assoc, length_append, length_cons, cons_append, nil_append] at skip
  simp only [cons_append, refSpots, head?_cons, and_self, if_true, drop_one, tail_cons,
    takeWhile_close within, length_append, length_cons]
  rw [if_neg (by decide), if_neg (by omega)]
  exact congrArg _ skip

/-- The text between two places of the parser, with the names of the references in it. -/
def Consumes (l l' : List Char) (names : List String) : Prop :=
  ∃ u, l = u ++ l' ∧ ∀ before, ∃ spots, refSpots 0 before l = spots ++ refSpots 0 (before ++ u) l' ∧
    spots.map (fun spot => String.ofList (trim spot.2)) = names

theorem Consumes.refl (l : List Char) : Consumes l l [] := ⟨[], rfl, fun before => ⟨[], by simp, rfl⟩⟩

variable {l l' l'' : List Char}

theorem Consumes.trans {a b : List String} (first : Consumes l l' a)
    (second : Consumes l' l'' b) : Consumes l l'' (a ++ b) := by
  obtain ⟨u, rfl, spots⟩ := first
  obtain ⟨v, rfl, more⟩ := second
  refine ⟨u ++ v, by simp, fun before => ?_⟩
  obtain ⟨here, found, rfl⟩ := spots before
  obtain ⟨there, found', rfl⟩ := more (before ++ u)
  exact ⟨here ++ there, by simp [found, found'], by simp⟩

theorem Consumes.skip (first : Consumes l l' [])
    (second : Consumes l' l'' names) : Consumes l l'' names := first.trans second

theorem consumes_plain {u : List Char} (plain : ∀ c ∈ u, Plain c) (l : List Char) :
    Consumes (u ++ l) l [] := by
  induction u with
  | nil => exact .refl l
  | cons c u ih =>
    obtain ⟨first, others⟩ := forall_mem_cons.1 plain
    exact Consumes.skip ⟨[c], rfl, fun before => ⟨[], refSpots_plain first before _, rfl⟩⟩ (ih others)

namespace Parser

variable {next : Parser} {rest : List Char} {rounds : Nat}

theorem drop_length {u l : List Char} (split : p.rest = u ++ l) : (p.drop u.length).rest = l := by
  rw [drop, split, drop_left]

theorem consumes_drop_one (starts : p.rest = c :: rest)
    (plain : Plain c) : Consumes p.rest (p.drop 1).rest [] := by
  have after : (p.drop 1).rest = rest := drop_length (u := [c]) starts
  rw [after, starts]
  exact consumes_plain (u := [c]) (by simpa using plain) rest

theorem skipWhile_rest (p : Parser) (within : Char → Bool) :
    p.rest = p.upTo within ++ (p.skipWhile within).rest := by
  have split : p.rest = p.upTo within ++ p.rest.dropWhile within :=
    takeWhile_append_dropWhile.symm
  rw [skipWhile, drop_length split]
  exact split

theorem consumes_skipWhile (p : Parser) {within : Char → Bool}
    (stops : ['$', '\'', '"'].all (fun c => !within c) = true) :
    Consumes p.rest (p.skipWhile within).rest [] := by
  rw [p.skipWhile_rest within]
  refine consumes_plain (fun c mem => ?_) _
  have held := mem_takeWhile_imp mem
  by_contra special
  have listed : c ∈ ['$', '\'', '"'] := by
    simp only [Plain, IsQuote, mem_cons, not_mem_nil, or_false] at special ⊢
    tauto
  have stop := all_eq_true.1 stops c listed
  simp [held] at stop

theorem consumes_skipWs (p : Parser) : Consumes p.rest p.skipWs.rest [] :=
  p.consumes_skipWhile (by decide)

/-- Eating that stops for nothing that a literal or a reference begins with. -/
def Eats (eat : Parser → Option Parser) : Prop :=
  ∀ p after, eat p = some after → Consumes p.rest after.rest []

theorem eats_symbol {sym : String} (plain : sym.toList.all fun c => Plain c) :
    Eats (eatSymbol sym) := by
  intro p after eaten
  rw [eatSymbol] at eaten
  split at eaten
  · rename_i starts
    cases eaten
    obtain ⟨l, split⟩ := isPrefixOf_iff_prefix.1 starts
    have after := drop_length split.symm
    rw [String.length_toList] at after
    rw [after, ← split]
    exact consumes_plain (fun c mem => of_decide_eq_true (all_eq_true.1 plain c mem)) l
  · contradiction

theorem eats_keyword {word : String} (plain : word.toList.all fun c => Plain c) :
    Eats (eatKeyword word) := by
  intro p after eaten
  rw [eatKeyword, Option.filter_eq_some_iff] at eaten
  exact eats_symbol plain p after eaten.1

def Reads (parser : Parse Expr) : Prop :=
  ∀ p e next, parser p = .ok (e, next) → Consumes p.rest next.rest e.vars

variable {operators : List ((Parser → Option Parser) × BinOp)} {operand : Parse Expr}

section Operators

variable (eats : ∀ entry ∈ operators, Eats entry.1)

include eats

theorem eats_first {after : Parser} {op : BinOp}
    (eaten : eatFirst operators p = some (op, after)) : Consumes p.rest after.rest [] := by
  obtain ⟨entry, mem, found⟩ := exists_of_findSome?_eq_some eaten
  obtain ⟨after', here, same⟩ := Option.map_eq_some_iff.1 found
  cases same
  exact eats entry mem p after here

theorem reads_operandsFrom (reads : Reads operand) {lhs : Expr}
    (parsed : operandsFrom operators operand rounds lhs p = .ok (e, next)) :
    ∃ names, e.vars = lhs.vars ++ names ∧ Consumes p.rest next.rest names := by
  induction rounds generalizing lhs p with
  | zero =>
    cases parsed
    exact ⟨[], (append_nil _).symm, p.consumes_skipWs⟩
  | succ rounds ih =>
    rw [operandsFrom] at parsed
    split at parsed
    · rename_i op after eaten
      obtain ⟨⟨rhs, middle⟩, right, parsed⟩ := bind_eq_ok.1 parsed
      obtain ⟨names, vars, rest⟩ := ih parsed
      refine ⟨rhs.vars ++ names, by rw [vars, Expr.vars, append_assoc], ?_⟩
      exact p.consumes_skipWs.skip <| (eats_first eats eaten).skip <|
        after.consumes_skipWs.skip <| (reads _ _ _ right).trans rest
    · cases parsed
      exact ⟨[], (append_nil _).symm, p.consumes_skipWs⟩

theorem Reads.leftAssociative (reads : Reads operand) :
    Reads (leftAssociative operators operand) := by
  intro p e next parsed
  obtain ⟨⟨lhs, middle⟩, left, parsed⟩ := bind_eq_ok.1 parsed
  obtain ⟨names, vars, rest⟩ := reads_operandsFrom eats reads parsed
  rw [vars]
  exact (reads _ _ _ left).trans rest

end Operators

variable {unary argument : Parse Expr}

theorem Reads.parseOr (reads : Reads unary) : Reads (parseOr unary) := by
  have symbol {sym : String} := @eats_symbol sym
  have keyword {word : String} := @eats_keyword word
  have multiplicative : Reads (parseMultiplicative unary) := reads.leftAssociative (by
    simp only [mem_cons, not_mem_nil, or_false, forall_eq_or_imp, forall_eq]
    exact ⟨symbol (by decide), keyword (by decide),
      keyword (by decide), symbol (by decide)⟩)
  have additive : Reads (parseAdditive unary) := multiplicative.leftAssociative (by
    simp only [mem_cons, not_mem_nil, or_false, forall_eq_or_imp, forall_eq]
    exact ⟨symbol (by decide), symbol (by decide)⟩)
  have comparison : Reads (parseComparison unary) := additive.leftAssociative (by
    simp only [mem_cons, not_mem_nil, or_false, forall_eq_or_imp, forall_eq]
    exact ⟨symbol (by decide), symbol (by decide),
      symbol (by decide), symbol (by decide),
      symbol (by decide), symbol (by decide)⟩)
  have and : Reads (parseAnd unary) := comparison.leftAssociative (by
    simpa only [mem_singleton, forall_eq] using keyword (by decide))
  exact and.leftAssociative (by
    simpa only [mem_singleton, forall_eq] using keyword (by decide))

theorem varsAll_append (a b : List Expr) :
    vars.varsAll (a ++ b) = vars.varsAll a ++ vars.varsAll b := by
  induction a with
  | nil => rfl
  | cons e a ih => simp [vars.varsAll, ih]

theorem reads_closeArgs {all : List Expr} (parsed : closeArgs args p = .ok (all, next)) :
    all = args ∧ Consumes p.rest next.rest [] := by
  rw [closeArgs] at parsed
  split at parsed
  · rename_i after eaten
    cases parsed
    exact ⟨rfl, eats_symbol (by decide) _ _ eaten⟩
  · contradiction

theorem reads_argsFrom (reads : Reads argument) {all : List Expr}
    (parsed : argsFrom argument rounds args p = .ok (all, next)) :
    ∃ names, vars.varsAll all = vars.varsAll args ++ names ∧ Consumes p.rest next.rest names := by
  have last {arg : Expr} {args : List Expr} {p middle : Parser}
      (one : argument p.skipWs = .ok (arg, middle))
      (parsed : closeArgs (args ++ [arg]) middle.skipWs = .ok (all, next)) :
      ∃ names, vars.varsAll all = vars.varsAll args ++ names ∧
        Consumes p.rest next.rest names := by
    obtain ⟨rfl, closed⟩ := reads_closeArgs parsed
    refine ⟨arg.vars ++ [], by simp [varsAll_append, vars.varsAll], ?_⟩
    exact p.consumes_skipWs.skip <| (reads _ _ _ one).trans <| middle.consumes_skipWs.skip closed
  induction rounds generalizing args p with
  | zero =>
    obtain ⟨⟨arg, middle⟩, one, parsed⟩ := bind_eq_ok.1 parsed
    exact last one parsed
  | succ rounds ih =>
    obtain ⟨⟨arg, middle⟩, one, parsed⟩ := bind_eq_ok.1 parsed
    dsimp only at parsed
    split at parsed
    · rename_i after eaten
      obtain ⟨names, more, rest⟩ := ih parsed
      refine ⟨arg.vars ++ names, by simp [more, varsAll_append, vars.varsAll], ?_⟩
      have comma := eats_symbol (by decide) _ _ eaten
      exact p.consumes_skipWs.skip <| (reads _ _ _ one).trans <|
        middle.consumes_skipWs.skip <| comma.skip rest
    · exact last one parsed

theorem reads_parseArgs (reads : Reads argument)
    (parsed : parseArgs argument p = .ok (args, next)) :
    Consumes p.rest next.rest (vars.varsAll args) := by
  rw [parseArgs] at parsed
  split at parsed
  · rename_i after eaten
    cases parsed
    exact p.consumes_skipWs.skip (eats_symbol (by decide) _ _ eaten)
  · obtain ⟨names, vars, rest⟩ := reads_argsFrom reads parsed
    rw [vars]
    exact p.consumes_skipWs.skip rest

theorem Reads.parseIdentOrCall (reads : Reads argument) : Reads (parseIdentOrCall argument) := by
  intro p e next parsed
  have ident : Consumes p.rest (p.skipWhile isIdentContinue).rest [] :=
    p.consumes_skipWhile (by decide)
  simp only [Parser.parseIdentOrCall] at parsed
  split at parsed
  · cases parsed
    exact ident
  · split at parsed
    · cases parsed
      exact ident
    · split at parsed
      · rename_i inner eaten
        obtain ⟨⟨args, after⟩, inside, parsed⟩ := bind_eq_ok.1 parsed
        cases parsed
        have opening := eats_symbol (by decide) _ _ eaten
        exact ident.skip <| (consumes_skipWs _).skip <| opening.skip (reads_parseArgs reads inside)
      · contradiction

theorem reads_parseNumber : Reads parseNumber := by
  intro p e next parsed
  rw [parseNumber] at parsed
  split at parsed
  · cases parsed
    exact p.consumes_skipWhile (by decide)
  · contradiction

theorem upTo_close {close : Char} (closed : (p.skipWhile (· ≠ close)).rest ≠ []) :
    close ∉ p.upTo (· ≠ close) ∧ p.rest =
      p.upTo (· ≠ close) ++ close :: ((p.skipWhile (· ≠ close)).drop 1).rest := by
  have split := p.skipWhile_rest (· ≠ close)
  have long : (p.rest.takeWhile (· ≠ close)).length < p.rest.length := by
    rw [congrArg length split, length_append]
    exact Nat.lt_add_of_pos_right (length_pos_of_ne_nil closed)
  obtain ⟨within, rest, isRest⟩ := takeWhile_closed long
  refine ⟨within, ?_⟩
  have after : (p.skipWhile (· ≠ close)).rest = close :: rest := drop_length isRest
  rw [drop, after]
  exact isRest

theorem reads_parseString {quote : Char} (isQuote : IsQuote quote) (starts : p.rest = quote :: rest)
    (parsed : parseString quote p = .ok (e, next)) : Consumes p.rest next.rest e.vars := by
  obtain ⟨closed, parsed⟩ := guard_eq_ok.1 parsed
  cases parsed
  obtain ⟨within, content⟩ := upTo_close closed
  have inside : (p.drop 1).rest = rest := drop_length (u := [quote]) starts
  rw [starts, ← inside, content]
  exact ⟨quote :: (p.drop 1).upTo (· ≠ quote) ++ [quote], by simp,
    fun before => ⟨[], refSpots_quoted isQuote within before _, rfl⟩⟩

theorem reads_parseVarRef
    (starts : p.rest = '$' :: '{' :: rest) (parsed : parseVarRef p = .ok (e, next)) :
    Consumes p.rest next.rest e.vars := by
  obtain ⟨closed, parsed⟩ := guard_eq_ok.1 parsed
  cases parsed
  obtain ⟨within, name⟩ := upTo_close closed
  have inside : (p.drop 2).rest = rest := drop_length (u := ['$', '{']) starts
  rw [starts, ← inside, name]
  exact ⟨'$' :: '{' :: (p.drop 2).upTo (· ≠ '}') ++ ['}'], by simp,
    fun before => ⟨[_], refSpots_ref within before _, rfl⟩⟩

theorem Reads.parseGroup (reads : Reads argument)
    (starts : p.rest = '(' :: rest) (parsed : parseGroup argument p = .ok (e, next)) :
    Consumes p.rest next.rest e.vars := by
  obtain ⟨⟨inner, middle⟩, inside, parsed⟩ := bind_eq_ok.1 parsed
  dsimp only at parsed
  split at parsed
  · rename_i after eaten
    cases parsed
    have opening := consumes_drop_one starts (by decide)
    have close := eats_symbol (by decide) _ _ eaten
    have body := (reads _ e middle inside).trans (middle.consumes_skipWs.skip close)
    rw [append_nil] at body
    exact opening.skip <| (consumes_skipWs _).skip body
  · contradiction

theorem Reads.parsePrimary (reads : Reads unary) : Reads (parsePrimary unary) := by
  intro start e next parsed
  refine start.consumes_skipWs.skip ?_
  simp only [Parser.parsePrimary] at parsed
  split at parsed
  · contradiction
  rename_i c rest starts
  split_ifs at parsed with group ref quoted number dot ident
  · exact reads.parseOr.parseGroup (group ▸ starts) parsed
  · obtain ⟨rfl, opening⟩ := ref
    cases rest with
    | nil => contradiction
    | cons d rest =>
      cases opening
      exact reads_parseVarRef starts parsed
  · exact reads_parseString quoted starts parsed
  · exact reads_parseNumber _ _ _ parsed
  · cases parsed
    exact consumes_drop_one starts (by subst dot; decide)
  · exact reads.parseOr.parseIdentOrCall _ _ _ parsed

theorem Reads.parseUnaryInner (reads : Reads unary) : Reads (parseUnaryInner unary) := by
  intro start e next parsed
  refine start.consumes_skipWs.skip ?_
  simp only [Parser.parseUnaryInner] at parsed
  split at parsed
  · rename_i after eaten
    obtain ⟨⟨operand, last⟩, inside, parsed⟩ := bind_eq_ok.1 parsed
    cases parsed
    have word := eats_keyword (by decide) _ _ eaten
    exact word.skip <| after.consumes_skipWs.skip (reads _ operand last inside)
  · split at parsed
    · rename_i after eaten
      obtain ⟨⟨operand, last⟩, inside, parsed⟩ := bind_eq_ok.1 parsed
      cases parsed
      have minus := eats_symbol (by decide) _ _ eaten
      exact minus.skip <| after.consumes_skipWs.skip (reads _ operand last inside)
    · exact reads.parsePrimary _ _ _ parsed

theorem reads_parseUnary (levels : Nat) : Reads (parseUnary levels) := by
  induction levels with
  | zero =>
    intro p e next parsed
    contradiction
  | succ levels ih =>
    intro p e next parsed
    obtain ⟨-, parsed⟩ := guard_eq_ok.1 parsed
    exact ih.parseUnaryInner { p with terms := p.terms + 1 } e next parsed

end Parser

theorem consumes_parse {input : String} (parsed : parse input = .ok e) :
    Consumes input.toList [] e.vars := by
  obtain ⟨-, parsed⟩ := guard_eq_ok.1 parsed
  obtain ⟨⟨inner, next⟩, inside, parsed⟩ := bind_eq_ok.1 parsed
  dsimp only at parsed
  split at parsed
  · rename_i atEnd
    cases parsed
    have body := (Parser.reads_parseUnary maxExpressionDepth).parseOr _ e next inside
    have all := (Parser.consumes_skipWs _).skip <| body.trans next.consumes_skipWs
    rwa [append_nil, atEnd] at all
  · contradiction

theorem mem_collectAll {args : List Expr}
    (each : ∀ arg ∈ args, ∀ out, name ∈ collectVars arg out ↔ name ∈ out ∨ name ∈ arg.vars)
    (out : ExtTreeSet String) :
    name ∈ collectVars.collectAll args out ↔ name ∈ out ∨ name ∈ vars.varsAll args := by
  induction args generalizing out with
  | nil => simp [collectVars.collectAll, vars.varsAll]
  | cons arg args ih =>
    rw [collectVars.collectAll, ih fun other mem => each other (by simp [mem]), each arg (by simp),
      vars.varsAll, mem_append, or_assoc]

theorem mem_collectVars : (e : Expr) → (out : ExtTreeSet String) →
    (name ∈ collectVars e out ↔ name ∈ out ∨ name ∈ e.vars)
  | varRef other, out => by
    simp only [collectVars, vars, ExtTreeSet.mem_insert, Std.compare_eq_iff_eq, mem_singleton]
    rw [or_comm, eq_comm]
  | literal _, out | dot, out => by simp [collectVars, vars]
  | binOp _ a b, out => by
    rw [collectVars, mem_collectVars b, mem_collectVars a, vars, mem_append, or_assoc]
  | unaryOp _ a, out => by rw [collectVars, mem_collectVars a, vars]
  | call _ args, out => by rw [collectVars, mem_collectAll fun arg mem => mem_collectVars arg, vars]

/-- The references that the parser reads are those outside string literals. -/
theorem mem_referencedVars {input : String} (parsed : parse input = .ok e) : name ∈ e.referencedVars ↔
    ∃ spot ∈ refSpots 0 [] input.toList, String.ofList (trim spot.2) = name := by
  obtain ⟨u, -, spots⟩ := consumes_parse parsed
  obtain ⟨here, found, names⟩ := spots []
  rw [referencedVars, mem_collectVars, ← names, found]
  simp [refSpots]

/-- Wherever the name is referenced, the reference stands behind a `${` that no brace closes. -/
def Hidden (text : String) (name : String) : Prop :=
  ∀ spot ∈ refSpots 0 [] text.toList, String.ofList (trim spot.2) = name → Unclosed spot.1

theorem reference_found {text : String} (named : name ≠ "") (shown : ¬ Hidden text name) :
    name ∈ extractVarRefs text := by
  unfold Hidden at shown
  push Not at shown
  obtain ⟨spot, mem, rfl, closed⟩ := shown
  obtain ⟨within, rest, split⟩ := mem_refSpots mem
  refine mem_extractVarRefs.2 ⟨named, spot.2, ?_, rfl⟩
  rw [← nil_append text.toList, split]
  exact mem_rawRefs within rest closed

end Expr
end Dynodoc
