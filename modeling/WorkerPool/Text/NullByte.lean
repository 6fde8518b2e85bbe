import WorkerPool.Text.Shape

/-! Null bytes in text. The machine takes a name to end at the first null byte, so a name that holds
one cannot be handed to it. -/

namespace WorkerPool.Text

/-- The bytes of a text in UTF-8. -/
def bytes (s : String) : List Nat :=
  (s.toList.flatMap String.utf8EncodeChar).map (·.toNat)

/-- The report on a text that holds a null byte: where the first one stands, and all the bytes. -/
def nullByte? (s : String) : Option Shape :=
  ((bytes s).findIdx? (· == 0)).map fun place =>
    .node "NulError" .parens
      (.part "" (.ofNat place) (.part "" (.sequence ((bytes s).map .ofNat)) .none))

end WorkerPool.Text
