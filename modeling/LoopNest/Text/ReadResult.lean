/-!
LoopNest.Text.ReadResult — bytes from outside, and the text in them.

Files and pipes hold UTF-8.  Bytes that are not UTF-8 hold no text, and
reading them as text fails like any other reading.
-/

namespace LoopNest

/-- What reading a file or a pipe gave: its bytes, or the reason why not. -/
abbrev ReadResult := Except String ByteArray

/-- The text that was read, or the reason why there is none. -/
def ReadResult.text : ReadResult → Except String String
  | .error reason => .error reason
  | .ok bytes =>
    match String.fromUTF8? bytes with
    | some text => .ok text
    | none => .error "stream did not contain valid UTF-8"

end LoopNest
