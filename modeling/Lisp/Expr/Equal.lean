import Lisp.Expr.Basic

namespace Lisp.Expr

/-- Being the same object. Numbers have no identity of their own and compare by value. -/
def identical : Expr → Expr → Bool
  | symbol s, symbol s' => s == s'
  | number n, number n' => n == n'
  | string i _, string j _ => i == j
  | pair i _ _, pair j _ _ => i == j
  | function i _ _ _, function j _ _ _ => i == j
  | _, _ => false

def equal : Expr → Expr → Bool
  | pair i h t, pair j h' t' => i == j || (h.equal h' && t.equal t')
  | string i s, string j s' => i == j || s == s'
  | e, e' => e.identical e'

end Lisp.Expr
