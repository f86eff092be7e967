/-!
# ASCII case folding

Mnemonics and register names are matched without regard to the case of ASCII letters only:
`PUSH` is `push`, but `ſub` (with a long s, which Unicode folds to `s`) is no mnemonic.
-/

namespace StackMachine.Text

/-- Whether two strings are equal once ASCII capitals are lowered; other characters must
match exactly. -/
def sameIgnoringCase (a b : String) : Bool :=
  a.toList.map Char.toLower == b.toList.map Char.toLower

end StackMachine.Text
