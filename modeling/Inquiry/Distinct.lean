set_option autoImplicit false

namespace Inquiry

/-- Leaves out the elements whose key is in `seen` or occurred earlier. -/
def distinctFrom {α β : Type} [DecidableEq β] (key : α → β) (seen : List β) : List α → List α
  | [] => []
  | a :: as =>
    if key a ∈ seen then distinctFrom key seen as
    else a :: distinctFrom key (key a :: seen) as

def distinctBy {α β : Type} [DecidableEq β] (key : α → β) (as : List α) : List α :=
  distinctFrom key [] as

end Inquiry
