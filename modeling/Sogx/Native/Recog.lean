import Sogx.Native.ImageMessage
import Sogx.Native.JzonWriter

/-!
`recog/src/main.cpp`: a message and its reply.

`Main.handleMessage` turns the body of one message into a JSON text. OpenCV is
outside the repository: decoding an image and counting the coins on it are the
parameters `imdecode` and `count`, which may throw anything. What they throw is
caught, so `handleMessage` has a reply for every body.
-/

namespace Sogx

open Sogx.Lib

/-- What a `catch` clause can tell apart: a `std::runtime_error`, any other
`std::exception`, and the rest. -/
inductive Thrown where
  | runtimeError | exception | other
deriving DecidableEq, Repr

structure Point where
  x : Int
  y : Int
deriving DecidableEq, Repr

structure Coin where
  center : Point
  radius : Int
deriving DecidableEq, Repr

/-- `hasRing` is there in builds `WITH_RINGS`. -/
structure CoinResult where
  coins : List Coin
  hasRing : Option Bool
deriving DecidableEq, Repr

namespace Main

open Jzon

def coinJson (coin : Coin) : TypedNode :=
  .object [
    ("center".toList, .object [("x".toList, .ofInt coin.center.x), ("y".toList, .ofInt coin.center.y)]),
    ("radius".toList, .ofInt coin.radius)]

/-- `responseJson`. Both `catch` clauses make the same one. -/
def reply : Except Thrown CoinResult → TypedNode
  | .ok result =>
    .object ((result.hasRing.toList.map fun ring => ("hasRing".toList, .ofBool ring)) ++
      [("coins".toList, .array (result.coins.map coinJson)), ("succeeded".toList, .ofBool true)])
  | .error _ => .object [("succeeded".toList, .ofBool false)]

variable {Mat : Type} (imdecode : Image → Except Thrown Mat)
  (count : Mat → Except Thrown CoinResult)

/-- The body of the `try`. The exceptions of `ImageMessage` are
`std::exception`s. -/
def recognise (body : List Byte) : Except Thrown CoinResult := do
  let imageMessage ← (ImageMessage.construct true body).mapError fun _ => .exception
  let imageData ← imageMessage.headImage.mapError fun _ => .exception
  let imageMat ← imdecode imageData
  count imageMat

/-- `Main::handleMessage`, from the body of the message on. -/
def handleMessage (body : List Byte) : String :=
  String.ofList (Writer.write noFormat (reply (recognise imdecode count body)))

end Main

end Sogx
