/-!
UTF-8 decoding of byte sequences, with the place and length of the first sequence that is not part
of any text.
-/

namespace Lox.Utf8

/-- Why bytes are no text: `length` bytes from `index` on begin no character, or the bytes end inside
one. -/
inductive Fault
  | invalid (index length : Nat)
  | incomplete (index : Nat)
deriving DecidableEq

def Fault.message : Fault → String
  | .invalid index length => s!"invalid utf-8 sequence of {length} bytes from index {index}"
  | .incomplete index => s!"incomplete utf-8 byte sequence from index {index}"

def isContinuation (byte : UInt8) : Bool := 0x80 ≤ byte && byte < 0xC0

/-- The second bytes that may follow a leading byte of a sequence of three or four: those that keep
the character out of the shorter encodings, the surrogates and the values past the last one. -/
def followsLead (lead second : UInt8) : Bool :=
  if lead = 0xE0 then 0xA0 ≤ second && second < 0xC0
  else if lead = 0xED then 0x80 ≤ second && second < 0xA0
  else if lead = 0xF0 then 0x90 ≤ second && second < 0xC0
  else if lead = 0xF4 then 0x80 ≤ second && second < 0x90
  else isContinuation second

def assemble (lead : Nat) (others : List UInt8) : Char :=
  Char.ofNat (others.foldl (fun value byte => value * 64 + byte.toNat % 64) lead)

def decodeFrom (index : Nat) : List UInt8 → Except Fault (List Char)
  | [] => .ok []
  | lead :: rest =>
      if lead < 0x80 then
        (decodeFrom (index + 1) rest).map (Char.ofNat lead.toNat :: ·)
      else if 0xC2 ≤ lead && lead < 0xE0 then
        match rest with
        | [] => .error (.incomplete index)
        | second :: rest =>
            if ¬ isContinuation second then .error (.invalid index 1)
            else (decodeFrom (index + 2) rest).map (assemble (lead.toNat % 32) [second] :: ·)
      else if 0xE0 ≤ lead && lead < 0xF0 then
        match rest with
        | [] => .error (.incomplete index)
        | second :: rest =>
            if ¬ followsLead lead second then .error (.invalid index 1)
            else
              match rest with
              | [] => .error (.incomplete index)
              | third :: rest =>
                  if ¬ isContinuation third then .error (.invalid index 2)
                  else
                    (decodeFrom (index + 3) rest).map
                      (assemble (lead.toNat % 16) [second, third] :: ·)
      else if 0xF0 ≤ lead && lead < 0xF5 then
        match rest with
        | [] => .error (.incomplete index)
        | second :: rest =>
            if ¬ followsLead lead second then .error (.invalid index 1)
            else
              match rest with
              | [] => .error (.incomplete index)
              | third :: rest =>
                  if ¬ isContinuation third then .error (.invalid index 2)
                  else
                    match rest with
                    | [] => .error (.incomplete index)
                    | fourth :: rest =>
                        if ¬ isContinuation fourth then .error (.invalid index 3)
                        else
                          (decodeFrom (index + 4) rest).map
                            (assemble (lead.toNat % 8) [second, third, fourth] :: ·)
      else .error (.invalid index 1)

def decode (bytes : List UInt8) : Except Fault String :=
  (decodeFrom 0 bytes).map String.ofList

end Lox.Utf8
