import Fon9.Base.StrTo

/-! The reverse buffer list: text is printed from the back to the front into nodes
of memory, and a new node is put in front when the first has too little room. How
much room a fresh node really gets is left to the memory pool. -/

namespace Fon9

structure RevBufferNode where
  room : ℕ
  data : Bytes
  deriving DecidableEq

structure RevBufferList where
  newAllocReserved : ℕ
  nodes : List RevBufferNode := []
  deriving DecidableEq

namespace RevBufferList

/-- The data of the nodes, front to back. -/
def data (b : RevBufferList) : List Bytes := b.nodes.map RevBufferNode.data

def content (b : RevBufferList) : Bytes := b.data.flatten

variable (blockRoom : ℕ → ℕ) (b : RevBufferList)

/-- `AllocPrefix`: room for `sz` bytes in front. -/
def allocPrefix (sz : ℕ) : RevBufferList :=
  let fresh : RevBufferList :=
    { b with nodes := ⟨blockRoom (sz + b.newAllocReserved), []⟩ :: b.nodes }
  match b.nodes with
  | [] => if sz = 0 then b else fresh
  | node :: _ => if node.room ≥ sz then b else fresh

/-- `SetPrefixUsed`, with the text written into the room. -/
def setPrefixUsed (text : Bytes) : RevBufferList :=
  match b.nodes with
  | [] => b
  | node :: rest => { b with nodes := ⟨node.room - text.length, text ++ node.data⟩ :: rest }

/-- Print a text for which `sz` bytes are asked for. -/
def revPut (sz : ℕ) (text : Bytes) : RevBufferList :=
  if text = [] then b else (b.allocPrefix blockRoom sz).setPrefixUsed text

/-- `MoveOut`: the data of the first node moves to the second when there is room. -/
def moveOut : List Bytes :=
  match b.nodes with
  | front :: next :: rest =>
    if next.room < front.data.length then b.data
    else (front.data ++ next.data) :: rest.map RevBufferNode.data
  | _ => b.data

variable {blockRoom b}

/-- A text goes into the first node or into a node of its own. -/
theorem revPut_data {sz : ℕ} {text : Bytes} (ht : text ≠ []) (h : text.length ≤ sz) :
    (b.revPut blockRoom sz text).data = text :: b.data ∨
      ∃ d ds, b.data = d :: ds ∧ (b.revPut blockRoom sz text).data = (text ++ d) :: ds := by
  have hsz : 0 < sz := (List.length_pos_iff.mpr ht).trans_le h
  rw [revPut, if_neg ht, allocPrefix]
  cases hn : b.nodes with
  | nil => left; simp [hsz.ne', setPrefixUsed, data, hn]
  | cons node rest =>
    by_cases hroom : node.room ≥ sz
    · right
      exact ⟨node.data, rest.map RevBufferNode.data, by simp [data, hn],
        by simp [hroom, setPrefixUsed, data, hn]⟩
    · left
      simp [hroom, setPrefixUsed, data, hn]

theorem revPut_content {sz : ℕ} {text : Bytes} (h : text.length ≤ sz) :
    (b.revPut blockRoom sz text).content = text ++ b.content := by
  by_cases ht : text = []
  · simp [revPut, ht]
  · obtain hd | ⟨d, ds, hb, hd⟩ := @revPut_data blockRoom b _ _ ht h
    · simp [content, hd]
    · simp [content, hd, hb]

theorem moveOut_flatten : b.moveOut.flatten = b.content := by
  unfold moveOut
  split
  case h_1 front next rest hn => split <;> simp [content, data, hn]
  case h_2 => rfl

end RevBufferList

end Fon9
