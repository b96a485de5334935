import BsdAdditions.Factor.Table

/-! `pr_fact` of `factor`, as built without OpenSSL: a `BIGNUM` is a 64-bit number. -/
namespace BsdAdditions.Factor

/-- One write to the standard output. -/
inductive Put where
  | str (s : String)
  | dec (n : ℕ)
  | hex (n : ℕ)
  deriving DecidableEq

/-- How a call ends other than by returning. -/
inductive Stop where
  | exit (code : ℕ)
  | outOfTable
  | outOfFuel
  deriving DecidableEq

def prPrint (hflag : Bool) (val : ℕ) : List Put :=
  if hflag then [.str " 0x", .hex val] else [.str " ", .dec val]

/-- Looks for the smallest factor. A position in the table is the part from it on; at the empty
part `fact` is beyond `pr_limit`, and reading it is reading outside the table. -/
def search (val : ℕ) : List ℕ → Except Stop (List ℕ)
  | [] => .error .outOfTable
  | fact :: rest =>
    if val % fact = 0 then .ok (fact :: rest)
    else if rest.isEmpty then .ok []
    else search val rest

/-- Divides the factor out until none are left. -/
def divideOut (hflag : Bool) (fact : ℕ) : ℕ → ℕ → Except Stop (List Put × ℕ)
  | 0, _ => .error .outOfFuel
  | fuel + 1, val =>
    if val / fact % fact = 0 then
      (divideOut hflag fact fuel (val / fact)).map fun r => (prPrint hflag fact ++ r.1, r.2)
    else .ok (prPrint hflag fact, val / fact)

def factorLoop (hflag : Bool) : ℕ → List ℕ → ℕ → Except Stop (List Put)
  | 0, _, _ => .error .outOfFuel
  | fuel + 1, fact, val =>
    if val = 1 then .ok []
    else
      match search val fact with
      | .error e => .error e
      | .ok [] => .ok (prPrint hflag val)
      | .ok (p :: rest) =>
        match divideOut hflag p val val with
        | .error e => .error e
        | .ok (out, val') => (factorLoop hflag fuel rest val').map (out ++ ·)

/-- Every round of the loop but the last uses up an entry of the table. -/
def prFact (hflag : Bool) (val : ℕ) : Except Stop (List Put) :=
  if val = 0 then .error (.exit 0)
  else if val = 1 then .ok [.str "1: 1\n"]
  else
    (factorLoop hflag (prime.length + 1) prime val).map fun out =>
      (if hflag then [.str "0x", .hex val] else [.dec val]) ++ [.str ":"] ++ out ++ [.str "\n"]

def Put.number? : Put → Option ℕ
  | .str _ => none
  | .dec n => some n
  | .hex n => some n

/-- The numbers printed after the colon. -/
def afterColon (out : List Put) : List ℕ :=
  (out.dropWhile (· ≠ .str ":")).filterMap Put.number?

end BsdAdditions.Factor
