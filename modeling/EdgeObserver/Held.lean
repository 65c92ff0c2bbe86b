import EdgeObserver.Text

/-!
# What is held at once

The paths a slot under the delivery gate is returned along, and the token one
connection's capture and retained input share.
-/

set_option autoImplicit false

namespace EdgeObserver.Held

/-- Why a slot was returned. A path is text in the program; `other` is any text
but the four it names. -/
inductive Path where
  | unretained
  | processed
  | discarded
  | cut
  | other (name : String)

structure Loss where
  reason : String := ""

def Loss.stop (loss : Loss) (reason : String) : Loss :=
  if loss.reason = "" then { loss with reason } else loss

end EdgeObserver.Held
