import Lexing.Span

/-!
Tokens: the finished matches of a text. To nest them by containment, they are sorted so that an outer one
comes before those inside it; a stack then holds the tokens that may still contain the next one.
-/

namespace Lexing

structure Token where
  kind : String
  text : String
  span : Span
  deriving DecidableEq, Repr

namespace Token

def offset (t : Token) : Nat := t.span.start.offset

def size (t : Token) : Nat := t.span.size

end Token

inductive TokenTree where
  | node (token : Token) (children : List TokenTree)

namespace TokenTree

def token : TokenTree → Token
  | node t _ => t

def children : TokenTree → List TokenTree
  | node _ ts => ts

mutual

def size : TokenTree → Nat
  | node _ ts => 1 + sizes ts

def sizes : List TokenTree → Nat
  | [] => 0
  | t :: rest => size t + sizes rest

end

mutual

def preorder : TokenTree → List Token
  | node t ts => t :: preorders ts

def preorders : List TokenTree → List Token
  | [] => []
  | t :: rest => preorder t ++ preorders rest

end

/-- An outer token is at its start, or else before it; of equal spans either may come first. -/
def inOrder (t u : Token) : Bool :=
  t.offset < u.offset || (t.offset = u.offset && u.size ≤ t.size)

def insert (t : Token) : List Token → List Token
  | [] => [t]
  | u :: rest => if inOrder t u then t :: u :: rest else u :: insert t rest

def sort (ts : List Token) : List Token := ts.foldr insert []

structure Frame where
  token : Token
  children : List TokenTree

structure Pending where
  frames : List Frame := []
  roots : List TokenTree := []

/-- Closes the open tokens from the innermost on, up to one for which `stays` holds. A closed
token, with the trees `done` that end it, becomes a tree of the one around it. -/
def close (stays : Token → Bool) (roots done : List TokenTree) : List Frame → Pending
  | [] => ⟨[], roots ++ done⟩
  | f :: rest =>
    let children := f.children ++ done
    if stays f.token then ⟨⟨f.token, children⟩ :: rest, roots⟩
    else close stays roots [node f.token children] rest

def place (p : Pending) (t : Token) : Pending :=
  let p := close (fun u => u.span.covers t.span) p.roots [] p.frames
  { p with frames := ⟨t, []⟩ :: p.frames }

/-- The forest of the tokens: each one is a child of the innermost token that covers it, and one
with the same span as another is its child. -/
def ofTokens (ts : List Token) : List TokenTree :=
  let p := (sort ts).foldl place {}
  (close (fun _ => false) p.roots [] p.frames).roots

end TokenTree

end Lexing
