import SimpleBinary.Schema.Layout
import SimpleBinary.Schema.MessageReader
import SimpleBinary.Schema.TypeReader

/-! The reading of a schema document: types first, then the message header,
then the messages, each laid out as it is read. -/
namespace SimpleBinary.Schema
open Xml (Element)

def checkHeader (types : Table String DataType) (headerType : String) : Check Unit :=
  match (types.get? headerType).bind DataType.composite? with
  | some members => Check.header headerType members
  | none => Check.error (.headerType headerType)

def layOut (message : Message) : Check Message := do
  let (arranged, outcome) ← (message.arrange : StateM Log (Message × Except Error Unit))
  match outcome with
  | .ok () => return arranged
  | .error error => throw error

/-- A second message of the same identity is left out, one of the same name is
not. -/
def addMessage (vocabulary : MessageReader.Vocabulary) (messages : Table Int32 Message)
    (element : Element) : Check (Table Int32 Message) := do
  let message ← MessageReader.readMessage vocabulary element
  if messages.contains message.id then
    Check.error (.duplicateMessageId message.id)
    return messages
  else
    if messages.values.any (·.name = message.name) then
      Check.warning (.duplicateMessageName message.name)
    return messages.insert message.id (← layOut message)

def ofRoot (root : Element) : Check Schema := do
  let packageName ← root.required "package"
  let id ← root.requiredWord "id"
  let version ← root.word "version" 0
  let headerType := (root.attribute? "headerType").getD "messageHeader"
  let types ← TypeReader.readAll root
  checkHeader types headerType
  Check.checkpoint
  let messages ← (root.childrenNamed "message").foldlM (addMessage { types, version }) .empty
  Check.checkpoint
  return {
    packageName, id, version, headerType, types, messages
    description := root.attribute? "description"
    semanticVersion := root.attribute? "semanticVersion"
    byteOrder := ((root.attribute? "byteOrder").map ByteOrder.ofName).getD .little }

def ofXml : Except Xml.Fault Element → Check Schema
  | .error fault => throw (.xml fault)
  | .ok root =>
    if root.name = "messageSchema" then ofRoot root
    else throw (.schema (.rootElement root.name))

def read (document : String) : Check Schema := ofXml (Element.ofDocument document)

def readLogged (document : String) (policy : Policy) : Except Error Schema × Log :=
  (read document).run { policy }

def parse (document : String) (policy : Policy) : Except Error Schema :=
  (readLogged document policy).1

end SimpleBinary.Schema
